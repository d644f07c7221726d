import Phrasebook.Proofs.CallOptions
import Phrasebook.Proofs.Meaning

/-!
# The range of an enumeration

What an enumeration may be said to choose from is written in one of two notations: an array of
texts, each its own key, or an object literal from keys to texts. A text need not be a literal, it
may be a sum of literals, nested in any way (`Phrasebook.Expr.AddsUpTo`), and a key may be a name, a
quoted string or a number, as long as it is not itself evaluated.

Both notations say the same kind of thing, a list of **choices** in order
(`Phrasebook.Expr.ListsChoices`), and that is all that is kept of them. A range can be used if it
lists choices, at least one, and no key comes twice (`Phrasebook.Expr.IsUsableRange`). These are
the ranges that are accepted, and no others; the enumeration then has these keys in this order, and
each key selects its own text (`Phrasebook.Enumeration.ofCall_usable_range`).

Repeated keys are looked for by going over the choices with the keys seen so far, so the statement
that none is found carries the keys that must not come again
(`Phrasebook.Enumeration.repeatedKey?_eq_none_iff`). Without repetitions it does not matter that a
text is looked up by the first entry under its key.
-/

namespace Phrasebook

/-! ### Texts known in advance -/

/-- **An expression adds up to a text**: it is a literal, or a sum whose parts add up to the parts
of the text. -/
inductive Expr.AddsUpTo : Expr → String → Prop
  | string (text : String) : AddsUpTo (.string text) text
  | add {left right : Expr} {before after : String} (hleft : left.AddsUpTo before)
      (hright : right.AddsUpTo after) : AddsUpTo (.binary .add left right) (before ++ after)

namespace Expr

/-- Folding finds the text an expression adds up to, if there is one. -/
theorem foldedString?_eq_some_iff {e : Expr} {text : String} :
    e.foldedString? = some text ↔ e.AddsUpTo text := by
  constructor
  · intro h
    fun_induction foldedString? e generalizing text with
    | case1 value => exact Option.some.inj h ▸ .string value
    | case2 left right ihleft ihright =>
      obtain ⟨before, hbefore, h⟩ := Option.bind_eq_some_iff.mp h
      obtain ⟨after, hafter, h⟩ := Option.bind_eq_some_iff.mp h
      exact Option.some.inj h ▸ .add (ihleft hbefore) (ihright hafter)
    | case3 => exact nomatch h
  · intro h
    induction h with
    | string => rfl
    | add _ _ ihleft ihright => rw [foldedString?, ihleft, ihright]; rfl

end Expr

theorem knownText_eq_ok_iff {location : Location} {function what text : String} {e : Expr} :
    knownText location function what e = .ok text ↔ e.AddsUpTo text := by
  rw [← Expr.foldedString?_eq_some_iff, knownText]
  cases e.foldedString? <;> simp

/-! ### Choices -/

/-- A property gives a choice if its key is known and its value adds up to a text. -/
inductive Property.Gives : Property → EnumEntry → Prop
  | static (key : StaticKey) {value : Expr} {text : String} (h : value.AddsUpTo text) :
    Gives (.static key value) ⟨key.denotes, text⟩

namespace Expr

/-- **The choices a range lists**, in order. -/
inductive ListsChoices : Expr → List EnumEntry → Prop
  /-- The items of an array are texts, each its own key. -/
  | array {items : List Expr} {choices : List EnumEntry}
      (h : List.Forall₂ (fun item c => c.key = c.text ∧ item.AddsUpTo c.text) items choices) :
    ListsChoices (.array items) choices
  /-- The properties of an object literal are keys with texts. -/
  | object {properties : List Property} {choices : List EnumEntry}
      (h : List.Forall₂ Property.Gives properties choices) :
    ListsChoices (.object properties) choices

/-- **A usable range** lists at least one choice, and no key twice. -/
structure IsUsableRange (range : Expr) (choices : List EnumEntry) : Prop where
  lists : range.ListsChoices choices
  nonempty : choices ≠ []
  nodup : (choices.map (·.key)).Nodup

end Expr

namespace Enumeration

variable {location : Location}

theorem itemEntry_eq_ok_iff {item : Expr} {c : EnumEntry} :
    itemEntry location item = .ok c ↔ c.key = c.text ∧ item.AddsUpTo c.text := by
  constructor
  · intro h
    obtain ⟨found, hfound, h⟩ := exists_of_bind_eq_ok h
    cases h
    exact ⟨rfl, knownText_eq_ok_iff.mp hfound⟩
  · rintro ⟨hkey, h⟩
    obtain ⟨key, text⟩ := c
    obtain rfl : key = text := hkey
    rw [itemEntry, rangeText, knownText_eq_ok_iff.mpr h]
    rfl

theorem propertyEntry_eq_ok_iff {p : Property} {c : EnumEntry} :
    propertyEntry location p = .ok c ↔ p.Gives c := by
  constructor
  · intro h
    cases p with
    | computed key value => exact nomatch h
    | static key value =>
      obtain ⟨text, htext, h⟩ := exists_of_bind_eq_ok h
      cases h
      exact .static key (knownText_eq_ok_iff.mp htext)
  · rintro ⟨key, h⟩
    rw [propertyEntry, Property.name?, Property.value, rangeText]
    dsimp only
    rw [knownText_eq_ok_iff.mpr h]
    rfl

/-- **What is read of a range is the choices it lists.** -/
theorem rangeEntries_eq_ok_iff {range : Expr} {choices : List EnumEntry} :
    rangeEntries location range = .ok choices ↔ range.ListsChoices choices := by
  constructor
  · intro h
    unfold rangeEntries at h
    split at h
    · exact .array ((mapM_eq_ok_iff.mp h).imp fun _ _ => itemEntry_eq_ok_iff.mp)
    · exact .object ((mapM_eq_ok_iff.mp h).imp fun _ _ => propertyEntry_eq_ok_iff.mp)
    · exact nomatch h
  · rintro (h | h)
    · exact mapM_eq_ok_iff.mpr (h.imp fun _ _ => itemEntry_eq_ok_iff.mpr)
    · exact mapM_eq_ok_iff.mpr (h.imp fun _ _ => propertyEntry_eq_ok_iff.mpr)

/-- No key is found again if the choices have different keys, none of them seen before. -/
theorem repeatedKey?_eq_none_iff {seen : List String} {choices : List EnumEntry} :
    repeatedKey? seen choices = none ↔
      (choices.map (·.key)).Nodup ∧ ∀ c ∈ choices, c.key ∉ seen := by
  induction choices generalizing seen with
  | nil => simp [repeatedKey?]
  | cons c choices ih =>
    rw [repeatedKey?]
    split
    · rename_i hseen
      simp [hseen]
    · rename_i hseen
      rw [ih, List.map_cons, List.nodup_cons, List.forall_mem_cons]
      simp only [List.mem_cons, not_or, List.mem_map, not_exists, not_and]
      constructor
      · rintro ⟨hnodup, hnew⟩
        exact ⟨⟨fun d hd => (hnew d hd).1, hnodup⟩, hseen, fun d hd => (hnew d hd).2⟩
      · rintro ⟨⟨hnew, hnodup⟩, -, hunseen⟩
        exact ⟨hnodup, fun d hd => ⟨hnew d hd, hunseen d hd⟩⟩

theorem ofArguments_eq_ok_iff {value range : Expr} {e : Enumeration} :
    ofArguments location value range = .ok e ↔
      ∃ choices, range.IsUsableRange choices ∧ e = { value, range := choices, location } := by
  constructor
  · intro h
    obtain ⟨choices, hchoices, h⟩ := exists_of_bind_eq_ok h
    split at h
    · exact nomatch h
    · rename_i hempty
      split at h
      · exact nomatch h
      · rename_i hrepeated
        refine ⟨choices, ⟨rangeEntries_eq_ok_iff.mp hchoices, ?_, ?_⟩, (Except.ok.inj h).symm⟩
        · rintro rfl
          exact hempty rfl
        · exact (repeatedKey?_eq_none_iff.mp hrepeated).1
  · rintro ⟨choices, ⟨hlists, hnonempty, hnodup⟩, rfl⟩
    have hempty : choices.isEmpty = false := by
      rwa [List.isEmpty_eq_false_iff]
    have hrepeated : repeatedKey? [] choices = none :=
      repeatedKey?_eq_none_iff.mpr ⟨hnodup, fun _ _ => List.not_mem_nil⟩
    rw [ofArguments, rangeEntries_eq_ok_iff.mpr hlists]
    simp only [bind, Except.bind, hempty, hrepeated, Bool.false_eq_true, if_false]
    rfl

/-! ### The text of a key -/

theorem mem_range_of_wordingFor? {e : Enumeration} {key text : String}
    (h : e.wordingFor? key = some text) : ⟨key, text⟩ ∈ e.range := by
  obtain ⟨before, after, hrange, -⟩ := wordingFor?_eq_some_iff.mp h
  rw [hrange]
  exact List.mem_append_right _ List.mem_cons_self

/-- **If no key comes twice, each selects its own text.** -/
theorem wordingFor?_key {e : Enumeration} (hnodup : e.keys.Nodup) {c : EnumEntry}
    (hc : c ∈ e.range) : e.wordingFor? c.key = some c.text := by
  obtain ⟨text, htext⟩ := exists_wordingFor? (List.mem_map_of_mem hc)
  have hsame : ⟨c.key, text⟩ = c :=
    List.inj_on_of_nodup_map hnodup (mem_range_of_wordingFor? htext) hc rfl
  rw [htext, ← hsame]

theorem wordingFor?_eq_none {e : Enumeration} {key : String} (hkey : key ∉ e.keys) :
    e.wordingFor? key = none := by
  cases h : e.wordingFor? key with
  | none => rfl
  | some text => exact absurd (List.mem_map_of_mem (mem_range_of_wordingFor? h)) hkey

/-! ### The two notations -/

/-- The texts of an array are also listed by an object literal in which each stands under itself. -/
theorem rangeEntries_object_eq {items : List Expr} {texts : List String}
    (h : List.Forall₂ Expr.AddsUpTo items texts) :
    rangeEntries location (.object (List.zipWith (fun t x => .static (.string t) x) texts items)) =
      rangeEntries location (.array items) := by
  have hobject : List.Forall₂ Property.Gives
      (List.zipWith (fun t x => .static (.string t) x) texts items)
      (texts.map fun t => ⟨t, t⟩) := by
    induction h with
    | nil => exact .nil
    | cons hadds _ ih => exact .cons (.static (.string _) hadds) ih
  have harray : (Expr.array items).ListsChoices (texts.map fun t => ⟨t, t⟩) := by
    refine .array (List.forall₂_map_right_iff.mpr (h.imp fun _ _ hadds => ?_))
    exact ⟨rfl, hadds⟩
  rw [rangeEntries_eq_ok_iff.mpr harray, rangeEntries_eq_ok_iff.mpr (.object hobject)]

/-- **The ranges an enumeration accepts** are the usable ones, in either notation. The enumeration
has the keys of its range, in order, each of which selects its own text, and nothing else selects
any. An array of texts is as good as an object literal in which each text stands under itself: what
comes of the two is the same, also where it is a rejection. -/
theorem ofCall_usable_range (location : Location) (value range : Expr) :
    ((∃ e, ofCall location [value, range] = .ok e) ↔ ∃ choices, range.IsUsableRange choices) ∧
    (∀ choices e, range.ListsChoices choices → ofCall location [value, range] = .ok e →
      e = { value, range := choices, location } ∧ e.keys = choices.map (·.key) ∧
      (∀ c ∈ choices, e.wordingFor? c.key = some c.text) ∧
      ∀ key, key ∉ e.keys → e.wordingFor? key = none) ∧
    ∀ items texts, List.Forall₂ Expr.AddsUpTo items texts →
      ofCall location [value, .array items] =
        ofCall location [value,
          .object (List.zipWith (fun t x => .static (.string t) x) texts items)] := by
  refine ⟨?_, fun choices e hlists h => ?_, fun items texts h => ?_⟩
  · constructor
    · rintro ⟨e, h⟩
      obtain ⟨choices, husable, -⟩ := ofArguments_eq_ok_iff.mp h
      exact ⟨choices, husable⟩
    · rintro ⟨choices, husable⟩
      exact ⟨_, ofArguments_eq_ok_iff.mpr ⟨choices, husable, rfl⟩⟩
  · obtain ⟨listed, husable, rfl⟩ := ofArguments_eq_ok_iff.mp h
    -- a range lists its choices in one way only, since they are what is read of it
    have hread : rangeEntries location range = .ok listed :=
      rangeEntries_eq_ok_iff.mpr husable.lists
    obtain rfl : listed = choices :=
      Except.ok.inj (hread.symm.trans (rangeEntries_eq_ok_iff.mpr hlists))
    refine ⟨rfl, rfl, fun c hc => ?_, fun key hkey => wordingFor?_eq_none hkey⟩
    exact wordingFor?_key (e := ⟨value, listed, location⟩) husable.nodup hc
  · exact congrArg (· >>= _) (rangeEntries_object_eq h).symm

/-- The colours red and blue, of which the one is written as a sum. -/
theorem ofCall_usable_range_redOrBlue :
    (∃ e, ofCall {} [.identifier "colour",
        .array [.string "red", .binary .add (.string "bl") (.string "ue")]] = .ok e ∧
      e.keys = ["red", "blue"] ∧ e.wordingFor? "blue" = some "blue" ∧
      e.wordingFor? "green" = none) ∧
    ofCall {} [.identifier "colour",
        .array [.string "red", .binary .add (.string "bl") (.string "ue")]] =
      ofCall {} [.identifier "colour",
        .object [.static (.string "red") (.string "red"),
          .static (.string "blue") (.binary .add (.string "bl") (.string "ue"))]] := by
  have hblue : (Expr.binary .add (.string "bl") (.string "ue")).AddsUpTo "blue" :=
    .add (.string "bl") (.string "ue")
  have hlists : (Expr.array [.string "red", .binary .add (.string "bl") (.string "ue")]).ListsChoices
      [⟨"red", "red"⟩, ⟨"blue", "blue"⟩] :=
    .array (.cons ⟨rfl, .string "red"⟩ (.cons ⟨rfl, hblue⟩ .nil))
  obtain ⟨haccepted, hexact, hsame⟩ := ofCall_usable_range {} (.identifier "colour")
    (.array [.string "red", .binary .add (.string "bl") (.string "ue")])
  obtain ⟨e, he⟩ := haccepted.mpr ⟨_, hlists, nofun, by decide⟩
  obtain ⟨-, hkeys, htexts, hnone⟩ := hexact _ e hlists he
  refine ⟨⟨e, he, hkeys, htexts ⟨"blue", "blue"⟩ (by decide), hnone "green" ?_⟩, ?_⟩
  · rw [hkeys]
    decide
  · exact hsame [.string "red", .binary .add (.string "bl") (.string "ue")] ["red", "blue"]
      (.cons (.string "red") (.cons hblue .nil))

end Enumeration

end Phrasebook
