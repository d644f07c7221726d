import Mathlib.Data.List.Forall2
import Phrasebook.Proofs.AxisPartition
import Phrasebook.Proofs.Levels
import Phrasebook.Proofs.Signature
import Phrasebook.Rendering

/-!
# What a phrase says under a signature

A phrase has a meaning before any of its nodes is looked up anywhere
(`Phrasebook.Means`): its nodes are read one after the other, each construct in the one way that
the value of its axis calls for, each fragment as a token or as the words in it. The texts are
written out there, the brackets of a token and the capital letter of a pronoun among them. Nothing
there has a way out. A choice without a value, a pronoun whose axis takes a key, an enumeration
without a text for its key: none of them means anything.

Rendering goes another way about it. It looks for the axis of a node by number, takes what stands
at that place of a signature, and leaves out the words of a node whose value is not of the kind
expected. That this is the meaning of the phrase, under every signature there is, on every level
and in every mode (`Phrasebook.renderAll_means`), rests on two facts. A construct that is found to
drive an axis is one whose owner the axis has (`Phrasebook.Phrase.gives_iff`); and what a
signature chooses on an axis is a value that each of its contributors has words for, since those
that share an axis share its candidates (`Phrasebook.Phrase.exists_value`).
-/

namespace Phrasebook

/-! ### The meaning of a phrase -/

/-- **The value a signature gives to a construct**: what it chooses on the axis of the owner. -/
def Signature.Gives (s : Signature) (axes : List Axis) (q : Placed) (v : AxisValue) : Prop :=
  ∃ a, (a, v) ∈ axes.zip s ∧ q.owner? = some a.owner

/-- How a token is written in a mode: inside the name of another token between brackets, and
between braces otherwise. -/
inductive Mode.Writes (t : TokenName) : Mode → String → Prop
  | leaf : Writes t .leaf ("\x7b" ++ t.text ++ "\x7d")
  | tokenName : Writes t .tokenName ("[" ++ t.text ++ "]")
  | description (target : Nat) : Writes t (.description target) ("\x7b" ++ t.text ++ "\x7d")

/-- The plural wording: the one given, or the singular with an `s`. -/
inductive Plural.ManyWords (p : Plural) : String → Prop
  | given {words : String} (h : p.many = some words) : ManyWords p words
  | regular (h : p.many = none) : ManyWords p (p.singular ++ "s")

/-- **What a construct means** in a mode, if `value` is what its axis takes. A plural is in the
singular for the count one and in the plural for all else, a count without a name of its own is
called `number`, and an enumeration reads as the first text in its range for the key. -/
inductive Construct.Means (value : AxisValue → Prop) (mode : Mode) : Construct → String → Prop
  | text (t : LiteralText) : Means value mode (.text t) t.value
  | param {p : Param} {token : String} (htoken : mode.Writes p.name token) :
    Means value mode (.param p) token
  | name {n : PersonName} {token : String} (htoken : mode.Writes n.name token) :
    Means value mode (.name n) token
  | sameParam {s : SameParam} {token : String} (htoken : mode.Writes s.name token) :
    Means value mode (.sameParam s) token
  | enumeration {e : Enumeration} {key words : String} {before after : List EnumEntry}
    (hvalue : value (.key key)) (hrange : e.range = before ++ ⟨key, words⟩ :: after)
    (hfirst : ∀ entry ∈ before, entry.key ≠ key) : Means value mode (.enumeration e) words
  | countedOne {p : Plural} (hvalue : value .exactlyOne) (hshow : p.showCount = .yes) :
    Means value mode (.plural p) ("1 " ++ p.singular)
  | one {p : Plural} (hvalue : value .exactlyOne) (hshow : p.showCount ≠ .yes) :
    Means value mode (.plural p) p.singular
  | countedMany {p : Plural} {v : AxisValue} {count words : String} (hvalue : value v)
    (hone : v ≠ .exactlyOne) (hshow : p.showCount ≠ .no)
    (hcount : mode.Writes (p.name.getD ⟨"number"⟩) count) (hwords : p.ManyWords words) :
    Means value mode (.plural p) (count ++ " " ++ words)
  | many {p : Plural} {v : AxisValue} {words : String} (hvalue : value v)
    (hone : v ≠ .exactlyOne) (hshow : p.showCount = .no) (hwords : p.ManyWords words) :
    Means value mode (.plural p) words
  | pronoun {p : Pronoun} {gender : PronounGender} (hvalue : value (.pronoun gender))
    (hcapital : p.capitalize = false) : Means value mode (.pronoun p) (p.usage.word gender)
  | capitalized {p : Pronoun} {gender : PronounGender} {first : Char} {others : List Char}
    (hvalue : value (.pronoun gender)) (hcapital : p.capitalize = true)
    (hword : p.usage.word gender = String.ofList (first :: others)) :
    Means value mode (.pronoun p) (String.ofList (first.toUpper :: others))

/-- **What some nodes mean** under a signature, the first of them being number `id` of its phrase.
A fragment is its token, an equals sign and what the nodes in it are named between braces, or it
is what they mean. -/
inductive Means (s : Signature) (axes : List Axis) : Mode → Nat → List Node → String → Prop
  | nil (mode : Mode) (id : Nat) : Means s axes mode id [] ""
  | construct {mode : Mode} {id : Nat} {c : Construct} {ns : List Node} {words rest : String}
    (h : c.Means (s.Gives axes ⟨id, c⟩) mode words) (hrest : Means s axes mode (id + 1) ns rest) :
    Means s axes mode id (.construct c :: ns) (words ++ rest)
  | token {mode : Mode} {id : Nat} {children ns : List Node} {location : Location}
    {words rest : String} (hmode : mode = .leaf ∨ mode = .description id)
    (h : Means s axes .tokenName (id + 1) children words)
    (hrest : Means s axes mode (id + (sizeAll children + 1)) ns rest) :
    Means s axes mode id (.fragment children location :: ns)
      ("\x7b=" ++ words ++ "\x7d" ++ rest)
  | words {mode : Mode} {id : Nat} {children ns : List Node} {location : Location}
    {words rest : String} (hmode : ¬(mode = .leaf ∨ mode = .description id))
    (h : Means s axes mode (id + 1) children words)
    (hrest : Means s axes mode (id + (sizeAll children + 1)) ns rest) :
    Means s axes mode id (.fragment children location :: ns) (words ++ rest)

mutual

/-- The levels inside a node of number `id`, each with the number of its first node. -/
def Node.levelsFrom (id : Nat) : Node → List (Nat × List Node)
  | .construct _ => []
  | .fragment children _ => (id + 1, children) :: levelsFrom (id + 1) children

/-- The levels inside some nodes, the first of which has number `id`. -/
def levelsFrom (id : Nat) : List Node → List (Nat × List Node)
  | [] => []
  | n :: ns => n.levelsFrom id ++ levelsFrom (id + n.size) ns

end

/-- The levels of a phrase as they are written: its nodes, and what each fragment wraps, with the
number of the first. -/
def Phrase.nodeLevels (p : Phrase) : List (Nat × List Node) :=
  (0, p.children) :: levelsFrom 0 p.children

mutual

theorem Node.forall₂_levels_outline : ∀ (n : Node) (id ordinal : Nat),
    List.Forall₂ (fun (l : Nat × List Node) level => ∃ ordinal, level = outlineAll l.1 ordinal l.2)
      (n.levelsFrom id) (n.outline id ordinal).levels
  | .construct _, _, _ => .nil
  | .fragment children _, id, ordinal =>
    .cons ⟨_, rfl⟩ (forall₂_levelsAll_outlineAll children (id + 1) (ordinal + 1))

theorem forall₂_levelsAll_outlineAll : ∀ (ns : List Node) (id ordinal : Nat),
    List.Forall₂ (fun (l : Nat × List Node) level => ∃ ordinal, level = outlineAll l.1 ordinal l.2)
      (levelsFrom id ns) (levelsAll (outlineAll id ordinal ns))
  | [], _, _ => .nil
  | n :: ns, id, ordinal =>
    List.rel_append (Node.forall₂_levels_outline n id ordinal)
      (forall₂_levelsAll_outlineAll ns (id + n.size) (ordinal + n.fragmentCount))

end

/-- **The levels of an outline are those of the phrase, numbered.** -/
theorem Phrase.forall₂_nodeLevels (p : Phrase) :
    List.Forall₂ (fun (l : Nat × List Node) level => ∃ ordinal, level = outlineAll l.1 ordinal l.2)
      p.nodeLevels p.levels :=
  .cons ⟨0, rfl⟩ (forall₂_levelsAll_outlineAll p.children 0 0)

/-! ### Values that a construct has words for -/

/-- **A construct has words for a value** on its axis: an enumeration for a key of its own, and a
pronoun for a bucket of genders. -/
def Construct.HasWordsFor (v : AxisValue) : Construct → Prop
  | .enumeration e => ∃ key words, v = .key key ∧ e.wordingFor? key = some words
  | .pronoun _ => ∃ gender, v = .pronoun gender
  | .plural _ => v = .any ∨ v = .exactlyOne ∨ ∃ category, v = .bucket category
  | .param _ | .name _ => v = .any
  | .text _ | .sameParam _ => False

/-- The text looked up for a key is the first that the range has for it. -/
theorem Enumeration.wordingFor?_eq_some_iff {e : Enumeration} {key words : String} :
    e.wordingFor? key = some words ↔ ∃ before after, e.range = before ++ ⟨key, words⟩ :: after ∧
      ∀ entry ∈ before, entry.key ≠ key := by
  rw [wordingFor?, Option.map_eq_some_iff]
  constructor
  · rintro ⟨entry, hfound, rfl⟩
    obtain ⟨hkey, before, after, hrange, hfirst⟩ := List.find?_eq_some_iff_append.mp hfound
    obtain rfl := of_decide_eq_true hkey
    exact ⟨before, after, hrange, fun other hother => by simpa using hfirst other hother⟩
  · rintro ⟨before, after, hrange, hfirst⟩
    refine ⟨⟨key, words⟩, List.find?_eq_some_iff_append.mpr ⟨decide_eq_true rfl, before, after,
      hrange, fun other hother => ?_⟩, rfl⟩
    simpa using hfirst other hother

theorem Enumeration.exists_wordingFor? {e : Enumeration} {key : String} (h : key ∈ e.keys) :
    ∃ words, e.wordingFor? key = some words := by
  obtain ⟨entry, hentry, hkey⟩ := List.mem_map.mp h
  have hsome : (e.range.find? (·.key = key)).isSome = true :=
    List.find?_isSome.mpr ⟨entry, hentry, decide_eq_true hkey⟩
  obtain ⟨found, hfound⟩ := Option.isSome_iff_exists.mp hsome
  exact ⟨found.text, by rw [wordingFor?, hfound, Option.map_some]⟩

/-- **A construct has words for every candidate of the axis it contributes.** -/
theorem Placed.hasWordsFor_of_mem_candidates {rules : Option PluralRules} {q : Placed} {a : Axis}
    (ha : q.axis? rules = some a) {v : AxisValue} (hv : v ∈ a.candidates) :
    q.construct.HasWordsFor v := by
  obtain ⟨id, c⟩ := q
  cases c with
  | text t => exact nomatch ha
  | sameParam s => exact nomatch ha
  | param p =>
    simp only [Placed.axis?] at ha
    split at ha
    · cases ha
      exact List.mem_singleton.mp hv
    · split at ha <;> cases ha
      exact List.mem_singleton.mp hv
  | name n =>
    cases ha
    exact List.mem_singleton.mp hv
  | pronoun p =>
    cases ha
    obtain ⟨gender, -, rfl⟩ := List.mem_map.mp hv
    exact ⟨gender, rfl⟩
  | enumeration e =>
    cases ha
    obtain ⟨key, hkey, rfl⟩ := List.mem_map.mp hv
    obtain ⟨words, hwords⟩ := Enumeration.exists_wordingFor? hkey
    exact ⟨key, words, rfl, hwords⟩
  | plural p =>
    cases ha
    rcases List.mem_append.mp hv with hv | hv
    · rcases rules with _ | r
      · exact Or.inl (List.mem_singleton.mp hv)
      · obtain ⟨category, -, rfl⟩ := List.mem_map.mp hv
        exact Or.inr (Or.inr ⟨category, rfl⟩)
    · exact Or.inr (Or.inl (List.mem_singleton.mp hv))

/-! ### Looking up values -/

namespace Phrase

variable {rules : Option PluralRules} {p : Phrase} {s : Signature} {q : Placed}

/-- **What is looked up for a construct is what the signature gives to it.** -/
theorem gives_iff (hq : q ∈ p.placed) {v : AxisValue} :
    s.Gives (p.axes rules) q v ↔ s.valueFor (p.axes rules) q.id = some v := by
  rw [Signature.valueFor, Option.bind_eq_some_iff]
  constructor
  · rintro ⟨a, hzip, howner⟩
    obtain ⟨i, hi⟩ := List.mem_iff_getElem?.mp hzip
    obtain ⟨ha, hv⟩ := List.getElem?_zip_eq_some.mp hi
    have hqa := (mem_contributors (List.mem_of_getElem? ha)).mpr ⟨hq, howner⟩
    exact ⟨i, drivenAxis?_eq_some_iff.mpr ⟨a, q, ha, hqa, rfl⟩, hv⟩
  · rintro ⟨i, hi, hv⟩
    obtain ⟨a, r, ha, hra, hid⟩ := drivenAxis?_eq_some_iff.mp hi
    obtain ⟨hr, howner⟩ := (mem_contributors (List.mem_of_getElem? ha)).mp hra
    obtain rfl : r = q := List.inj_on_of_nodup_map p.nodup_ids hr hq hid
    exact ⟨a, List.mem_iff_getElem?.mpr ⟨i, List.getElem?_zip_eq_some.mpr ⟨ha, hv⟩⟩, howner⟩

/-- **Every look-up succeeds**: a construct that varies has an axis, a signature has a value on
it, and the construct has words for that value. -/
theorem exists_value (hs : s.Chooses (p.axes rules)) (hq : q ∈ p.placed)
    (hvaries : q.construct.varies = true) :
    ∃ i v, drivenAxis? (p.axes rules) q.id = some i ∧ s[i]? = some v ∧
      q.construct.HasWordsFor v := by
  obtain ⟨a, hown, hqa⟩ := exists_axis_of_varies rules hq hvaries
  obtain ⟨i, ha⟩ := List.mem_iff_getElem?.mp (mem_axes.mpr (Or.inr hown))
  obtain ⟨hi, rfl⟩ := List.getElem?_eq_some_iff.mp ha
  have hlength := List.Forall₂.length_eq hs
  have hchosen := List.Forall₂.get hs (hlength ▸ hi) hi
  refine ⟨i, s[i], drivenAxis?_eq_some_iff.mpr ⟨_, q, ha, hqa, rfl⟩,
    List.getElem?_eq_getElem _, ?_⟩
  exact Placed.hasWordsFor_of_mem_candidates ((p.collected rules).contributed _ hown q hqa) hchosen

end Phrase

/-! ### Rendering is the meaning -/

section Tokens

variable {mode : Mode} {t : TokenName} {text : String}

/-- A token is rendered as it is written. -/
theorem Mode.writes_iff : mode.Writes t text ↔ mode.token t = text := by
  constructor
  · rintro (_ | _ | _) <;> rfl
  · rintro rfl
    cases mode with
    | leaf => exact .leaf
    | tokenName => exact .tokenName
    | description target => exact .description target

theorem Mode.writes_token (mode : Mode) (t : TokenName) : mode.Writes t (mode.token t) :=
  writes_iff.mpr rfl

theorem TokenName.placeholder_implicit (words : String) :
    (TokenName.implicit words).placeholder = "\x7b=" ++ words ++ "\x7d" := by
  rw [placeholder, implicit, ← String.append_assoc]
  rfl

end Tokens

section Plurals

variable {p : Plural} {mode : Mode}

theorem Plural.manyWords_iff {words : String} : p.ManyWords words ↔ p.manyWording = words := by
  constructor
  · rintro (h | h) <;> rw [manyWording, h] <;> rfl
  · rintro rfl
    rcases h : p.many with _ | words
    · rw [manyWording, h]
      exact .regular h
    · rw [manyWording, h]
      exact .given h

theorem Plural.render_one_of_ne (h : p.showCount ≠ .yes) : p.render mode true = p.singular := by
  rw [render]
  cases hshow : p.showCount <;> first | rfl | exact absurd hshow h

theorem Plural.render_many_of_ne (h : p.showCount ≠ .no) :
    p.render mode false = mode.token p.token ++ " " ++ p.manyWording := by
  rw [render]
  cases hshow : p.showCount <;> first | rfl | exact absurd hshow h

/-- A plural that has a value reads as it means. -/
theorem Plural.means_render (p : Plural) (mode : Mode) (v : AxisValue) :
    (Construct.plural p).Means (some v = some ·) mode
      (p.render mode (some v = some .exactlyOne)) := by
  by_cases hone : v = .exactlyOne
  · rw [decide_eq_true (congrArg some hone)]
    have hvalue : some v = some .exactlyOne := congrArg some hone
    by_cases hshow : p.showCount = .yes
    · have hrender : p.render mode true = "1 " ++ p.singular := by rw [render, if_pos rfl, hshow]
      rw [hrender]
      exact .countedOne hvalue hshow
    · rw [render_one_of_ne hshow]
      exact .one hvalue hshow
  · rw [decide_eq_false (mt Option.some.inj hone)]
    by_cases hshow : p.showCount = .no
    · have hrender : p.render mode false = p.manyWording := by simp [render, hshow]
      rw [hrender]
      exact .many rfl hone hshow (manyWords_iff.mpr rfl)
    · rw [render_many_of_ne hshow]
      exact .countedMany rfl hone hshow (mode.writes_token p.token) (manyWords_iff.mpr rfl)

end Plurals

section Pronouns

/-- No pronoun is an empty word. -/
theorem PronounUsage.exists_word_eq (usage : PronounUsage) (gender : PronounGender) :
    ∃ first others, usage.word gender = String.ofList (first :: others) := by
  have hne : (usage.word gender).toList ≠ [] := by
    cases usage <;> cases gender <;> decide
  obtain ⟨first, others, h⟩ := List.exists_cons_of_ne_nil hne
  exact ⟨first, others, by rw [← h, String.ofList_toList]⟩

theorem capitalized_ofList (first : Char) (others : List Char) :
    capitalized (String.ofList (first :: others)) = String.ofList (first.toUpper :: others) := by
  rw [capitalized, String.toList_ofList]

end Pronouns

section Constructs

variable {value : Option AxisValue} {mode : Mode} {c : Construct} {words : String}

/-- What a construct means is what it is rendered as. -/
theorem Construct.Means.render_eq (h : c.Means (value = some ·) mode words) :
    c.render mode value = words := by
  cases h with
  | text => rfl
  | param htoken | name htoken | sameParam htoken => exact Mode.writes_iff.mp htoken
  | enumeration hvalue hrange hfirst =>
    have hwords := Enumeration.wordingFor?_eq_some_iff.mpr ⟨_, _, hrange, hfirst⟩
    rw [hvalue, render, hwords, Option.getD_some]
  | countedOne hvalue hshow => simp [render, Plural.render, hvalue, hshow]
  | one hvalue hshow => rw [hvalue, render, decide_eq_true rfl, Plural.render_one_of_ne hshow]
  | countedMany hvalue hone hshow hcount hwords =>
    rw [hvalue, render, decide_eq_false (mt Option.some.inj hone), Plural.render_many_of_ne hshow,
      ← Mode.writes_iff.mp hcount, ← Plural.manyWords_iff.mp hwords]
    rfl
  | many hvalue hone hshow hwords =>
    rw [← Plural.manyWords_iff.mp hwords]
    simp [render, Plural.render, hvalue, hone, hshow]
  | pronoun hvalue hcapital => simp [render, Pronoun.render, hvalue, hcapital]
  | capitalized hvalue hcapital hword =>
    rw [hvalue, render, Pronoun.render, if_pos hcapital, hword, capitalized_ofList]

/-- **A construct is rendered as it means** once it has words for its value, if it varies. -/
theorem Construct.means_render
    (h : c.varies = true → ∃ v, value = some v ∧ c.HasWordsFor v) :
    c.Means (value = some ·) mode (c.render mode value) := by
  cases c with
  | text t => exact .text t
  | param p => exact .param (mode.writes_token p.name)
  | name n => exact .name (mode.writes_token n.name)
  | sameParam s => exact .sameParam (mode.writes_token s.name)
  | enumeration e =>
    obtain ⟨_, rfl, key, words, rfl, hwords⟩ := h rfl
    obtain ⟨before, after, hrange, hfirst⟩ := Enumeration.wordingFor?_eq_some_iff.mp hwords
    rw [render, hwords, Option.getD_some]
    exact .enumeration rfl hrange hfirst
  | plural p =>
    obtain ⟨v, rfl, -⟩ := h rfl
    exact p.means_render mode v
  | pronoun p =>
    obtain ⟨_, rfl, gender, rfl⟩ := h rfl
    rw [render, Pronoun.render]
    split
    · obtain ⟨first, others, hword⟩ := p.usage.exists_word_eq gender
      rw [hword, capitalized_ofList]
      exact .capitalized rfl ‹_› hword
    · exact .pronoun rfl (Bool.eq_false_iff.mpr ‹_›)

end Constructs

theorem Mode.showsToken_iff {mode : Mode} {id : Nat} :
    mode.showsToken id = true ↔ mode = .leaf ∨ mode = .description id := by
  cases mode <;> simp [showsToken, eq_comm]

section Nodes

variable {rules : Option PluralRules} {p : Phrase} {s : Signature}

/-- What is looked up for a construct, as a property of values. -/
theorem Phrase.gives_eq {q : Placed} (hq : q ∈ p.placed) :
    s.Gives (p.axes rules) q = (s.valueFor (p.axes rules) q.id = some ·) := by
  funext v
  exact propext (gives_iff hq)

/-- **What nodes of a phrase mean is what they are rendered as.** -/
theorem Means.renderAll_eq {mode : Mode} {id : Nat} {ns : List Node} {words : String}
    (h : Means s (p.axes rules) mode id ns words) : ∀ {ordinal : Nat},
    (∀ q ∈ constructsAll (outlineAll id ordinal ns), q ∈ p.placed) →
      renderAll (s.valueFor (p.axes rules)) mode (outlineAll id ordinal ns) = words := by
  induction h with
  | nil => exact fun _ => rfl
  | construct hmeans hrest ih =>
    intro ordinal hin
    obtain ⟨hq, hin⟩ := List.forall_mem_cons.mp hin
    rw [Phrase.gives_eq hq] at hmeans
    rw [outlineAll, Node.outline, renderAll, Outline.render, hmeans.render_eq]
    exact congrArg _ (ih hin)
  | token hmode hmeans hrest ihin ih =>
    intro ordinal hin
    obtain ⟨hchildren, hin⟩ := List.forall_mem_append.mp hin
    rw [outlineAll, Node.outline, renderAll, Outline.render, if_pos (Mode.showsToken_iff.mpr hmode),
      ihin hchildren, TokenName.placeholder_implicit]
    exact congrArg _ (ih hin)
  | words hmode hmeans hrest ihin ih =>
    intro ordinal hin
    obtain ⟨hchildren, hin⟩ := List.forall_mem_append.mp hin
    rw [outlineAll, Node.outline, renderAll, Outline.render,
      if_neg (mt Mode.showsToken_iff.mp hmode), ihin hchildren]
    exact congrArg _ (ih hin)

/-- **Nodes of a phrase are rendered as they mean**, under every signature of its axes. -/
theorem means_renderAll (hs : s.Chooses (p.axes rules)) : ∀ (ns : List Node) (mode : Mode)
    (id ordinal : Nat), (∀ q ∈ constructsAll (outlineAll id ordinal ns), q ∈ p.placed) →
      Means s (p.axes rules) mode id ns
        (renderAll (s.valueFor (p.axes rules)) mode (outlineAll id ordinal ns))
  | [], mode, id, _, _ => .nil mode id
  | .construct c :: ns, mode, id, ordinal, hin => by
    obtain ⟨hq, hin⟩ := List.forall_mem_cons.mp hin
    refine .construct ?_ (means_renderAll hs ns mode _ _ hin)
    rw [Phrase.gives_eq hq]
    refine Construct.means_render fun hvaries => ?_
    obtain ⟨i, v, hi, hv, hwords⟩ := Phrase.exists_value hs hq hvaries
    refine ⟨v, ?_, hwords⟩
    rw [Signature.valueFor, hi, Option.bind_some, hv]
  | .fragment children location :: ns, mode, id, ordinal, hin => by
    obtain ⟨hchildren, hin⟩ := List.forall_mem_append.mp hin
    have hrest := means_renderAll hs ns mode _ _ hin
    rw [outlineAll, Node.outline, renderAll, Outline.render]
    split
    · rw [TokenName.placeholder_implicit]
      exact .token (Mode.showsToken_iff.mp ‹_›)
        (means_renderAll hs children .tokenName _ _ hchildren) hrest
    · exact .words (mt Mode.showsToken_iff.mpr ‹_›) (means_renderAll hs children mode _ _ hchildren)
        hrest

end Nodes

/-- **Rendering is the meaning of a phrase.** Under every signature of its axes, on every level
and in every mode, the nodes mean one text, and that is what they are rendered as. No look-up
goes astray: a construct that varies has an axis, the signature a value on it, and the construct
words for the value. -/
theorem renderAll_means (rules : Option PluralRules) (p : Phrase) {s : Signature}
    (hs : s ∈ signatures (p.axes rules)) :
    List.Forall₂ (fun (l : Nat × List Node) level => ∀ mode text,
        Means s (p.axes rules) mode l.1 l.2 text ↔
          renderAll (s.valueFor (p.axes rules)) mode level = text) p.nodeLevels p.levels ∧
      ∀ q ∈ p.placed, q.construct.varies = true → ∃ i v,
        drivenAxis? (p.axes rules) q.id = some i ∧ s[i]? = some v ∧ q.construct.HasWordsFor v := by
  have hs := mem_signatures.mp hs
  refine ⟨?_, fun q hq hvaries => p.exists_value hs hq hvaries⟩
  have hin : ∀ level ∈ p.levels, ∀ q ∈ constructsAll level, q ∈ p.placed :=
    fun level hlevel q hq => Phrase.placed_of_mem_levels hlevel hq
  have hlevels := (List.forall₂_and_left _ _).mpr ⟨hin, p.forall₂_nodeLevels.flip⟩
  refine hlevels.flip.imp fun l level hlevel mode text => ?_
  obtain ⟨hin, ordinal, rfl⟩ := hlevel
  constructor
  · intro hmeans
    exact hmeans.renderAll_eq hin
  · rintro rfl
    exact means_renderAll hs l.2 mode l.1 ordinal hin

/-- A choice of a pet, as one text or as another. -/
def petChoice (cat dog : String) : Enumeration where
  value := .identifier "pet"
  range := [⟨"cat", cat⟩, ⟨"dog", dog⟩]

/-- A fragment that names the pet again, with a toy in a fragment of its own. -/
def petWithToy : List Node :=
  [.construct (.enumeration (petChoice ", a tom, " ", a hound, ")),
   .construct (.pronoun { usage := .reflexive, gender := .identifier "gender" }),
   .fragment
     [.construct (.text { value := " with " }),
      .construct (.param { name := ⟨"toy"⟩, value := .identifier "toy" })] {}]

/-- A phrase that names a pet, counts its young and names their owner. The end of it comes back
to the toy. -/
def petsShown : Phrase where
  description := "A pet with its young"
  children :=
    [.construct (.enumeration (petChoice "A cat" "A dog")),
     .construct (.text { value := " and " }),
     .construct (.plural
       { singular := "kitten", count := .identifier "count", showCount := .yes,
         name := some ⟨"young"⟩ }),
     .construct (.text { value := " of " }),
     .construct (.name
       { name := ⟨"owner"⟩, value := .identifier "owner", gender := .identifier "other" }),
     .fragment petWithToy {},
     .construct (.text { value := ". " }),
     .construct (.pronoun
       { usage := .subject, gender := .identifier "gender", capitalize := true }),
     .construct (.text { value := " likes " }),
     .construct (.sameParam { name := ⟨"toy"⟩ })]

/-- Both enumerations read for the one key. Tokens stand between braces, or between brackets in
the name of a token; the outer fragment is such a name on the level around it, its words on its
own level, and its words around the token of the inner fragment where that one is described. For
the count one the number is part of the text. -/
theorem renderAll_means_petsShown :
    let axes := petsShown.axes none
    let s : Signature := [.key "dog", .any, .any, .pronoun .male, .pronoun .male]
    let t : Signature := [.key "cat", .exactlyOne, .any, .pronoun .female, .pronoun .female]
    (s ∈ signatures axes ∧
      Means s axes .leaf 0 petsShown.children
        ("A dog and \x7byoung\x7d kittens of \x7bowner\x7d" ++
          "\x7b=, a hound, himself with [toy]\x7d. He likes \x7btoy\x7d") ∧
      Means s axes .tokenName 0 petsShown.children
        "A dog and [young] kittens of [owner], a hound, himself with [toy]. He likes [toy]" ∧
      Means s axes (.description 8) 0 petsShown.children
        ("A dog and \x7byoung\x7d kittens of \x7bowner\x7d, a hound, himself" ++
          "\x7b= with [toy]\x7d. He likes \x7btoy\x7d") ∧
      Means s axes .leaf 6 petWithToy ", a hound, himself\x7b= with [toy]\x7d") ∧
    (t ∈ signatures axes ∧
      Means t axes .leaf 0 petsShown.children
        ("A cat and 1 kitten of \x7bowner\x7d" ++
          "\x7b=, a tom, herself with [toy]\x7d. She likes \x7btoy\x7d")) ∧
    ∃ i v, drivenAxis? axes 6 = some i ∧ s[i]? = some v ∧
      (Construct.enumeration (petChoice ", a tom, " ", a hound, ")).HasWordsFor v := by
  intro axes s t
  have hs : s ∈ signatures axes := by decide
  have ht : t ∈ signatures axes := by decide
  obtain ⟨hlevels, hvalue⟩ := renderAll_means none petsShown hs
  obtain ⟨hroot, hinner⟩ := List.forall₂_cons.mp hlevels
  obtain ⟨hfragment, -⟩ := List.forall₂_cons.mp hinner
  obtain ⟨hroot', -⟩ := List.forall₂_cons.mp (renderAll_means none petsShown ht).1
  refine ⟨⟨hs, (hroot _ _).mpr rfl, (hroot _ _).mpr rfl, (hroot _ _).mpr rfl,
    (hfragment _ _).mpr rfl⟩, ⟨ht, (hroot' _ _).mpr rfl⟩, ?_⟩
  exact hvalue ⟨6, _⟩ (List.mem_of_getElem? (i := 5) rfl) rfl

end Phrasebook
