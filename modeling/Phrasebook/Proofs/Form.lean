import Phrasebook.Proofs.Acceptance
import Phrasebook.Proofs.Retelling

/-!
# A payload tells nothing of runtime expressions

What translators are handed depends on how a phrase is worded, and on nothing that its author
computes at run time. The **form** of a phrase (`Phrasebook.Phrase.form`) is what is left of it
when every runtime expression is left blank, and every location forgotten; where an expression
may be absent the form still tells whether it is there. Phrases of one form that are compiled
have the same payloads, down to the last character, and they are fed in the same way: with the
same temporaries and the same calls in the same order, but for the expressions in these calls
(`Phrasebook.compile_of_form_eq`).

Expressions do have a say in whether a phrase is compiled at all. Enumerations on one axis must
be driven by equal ones, and one that is evaluated ahead must hold no call. This is why both
phrases are assumed to be compiled; what the checks let pass they do not look at again.
-/

namespace Phrasebook

/-! ### Forms -/

/-- What stands in the place of an expression that is left blank. -/
def blank (_ : Expr) : Expr :=
  .null

/-- **The form of a phrase**: every expression is left blank, and every location
forgotten. -/
def Phrase.form (p : Phrase) : Phrase :=
  p.map blank fun _ => {}

/-- The form of an argument: its kind, its token, its keys and its alias, and in a fragment
the payload and the forms of the arguments. -/
def Argument.form (a : Argument) : Argument :=
  a.map blank

/-- The form of a temporary: its axis, and the form of its call. -/
def Hoisted.form (h : Hoisted) : Hoisted :=
  h.map blank

/-- The form of a compiled phrase. -/
def CompiledPhrase.form (c : CompiledPhrase) : CompiledPhrase :=
  c.map blank fun _ => {}

/-! ### A form is compiled to a form -/

/-- Leaves every expression blank and forgets every location, and numbers nothing anew. -/
def blanking : Recasting where
  id := id
  ordinal := id
  expr := blank
  location _ := {}
  id_injective := Function.injective_id

theorem retellsPhrase_form (p : Phrase) : blanking.RetellsPhrase p p.form where
  outline := Recasting.retells_outlineAll blanking p.children (fun _ _ => rfl) fun _ _ => rfl
  description := rfl
  options := rfl
  location := rfl

/-- **The form of a phrase is compiled to the form of the compiled phrase.** -/
theorem assemble_form (config : Config) (p : Phrase) :
    assemble config p.form = (assemble config p).form :=
  (retellsPhrase_form p).assemble_eq (fun _ => rfl) config

mutual

theorem Argument.map_payload_fragments (e : Expr → Expr) : ∀ a : Argument,
    (a.map e).fragments.map (·.payload) = a.fragments.map (·.payload)
  | .temporary _ => rfl
  | .call _ => rfl
  | .fragment aliasName payload arguments => by
    rw [Argument.map, Argument.fragments, Argument.fragments, List.map_cons, List.map_cons,
      map_payload_fragmentsIn e arguments]

/-- Fragments keep their payloads when expressions are changed. -/
theorem map_payload_fragmentsIn (e : Expr → Expr) : ∀ arguments : List Argument,
    (fragmentsIn (mapArguments e arguments)).map (·.payload) =
      (fragmentsIn arguments).map (·.payload)
  | [] => rfl
  | a :: rest => by
    rw [mapArguments, fragmentsIn, fragmentsIn, List.map_append, List.map_append,
      Argument.map_payload_fragments e a, map_payload_fragmentsIn e rest]

end

theorem CompiledPhrase.map_payload_fragments_form (c : CompiledPhrase) :
    c.form.fragments.map (·.payload) = c.fragments.map (·.payload) := by
  rw [CompiledPhrase.fragments, CompiledPhrase.fragments, CompiledPhrase.form, CompiledPhrase.map,
    ← mapArguments_eq]
  exact map_payload_fragmentsIn blank c.arguments

/-! ### Phrases of one form -/

/-- **Payloads depend on wording only.** Phrases that differ in nothing but locations and the
contents of runtime expressions are compiled to the same payload, and their fragments are; and
their arguments and temporaries are of the same forms. -/
theorem compile_of_form_eq {config : Config} {p q : Phrase} {c d : CompiledPhrase}
    (hform : p.form = q.form) (hp : compile config p = .ok c) (hq : compile config q = .ok d) :
    c.payload.text = d.payload.text ∧
      c.fragments.map (·.payload.text) = d.fragments.map (·.payload.text) ∧
      c.arguments.map Argument.form = d.arguments.map Argument.form ∧
      c.hoisted.map Hoisted.form = d.hoisted.map Hoisted.form := by
  obtain ⟨-, rfl⟩ := compile_eq_ok_iff.mp hp
  obtain ⟨-, rfl⟩ := compile_eq_ok_iff.mp hq
  have hcd : (assemble config p).form = (assemble config q).form := by
    rw [← assemble_form, ← assemble_form, hform]
  have hpayloads : (assemble config p).fragments.map (·.payload) =
      (assemble config q).fragments.map (·.payload) := by
    rw [← CompiledPhrase.map_payload_fragments_form, hcd,
      CompiledPhrase.map_payload_fragments_form]
  refine ⟨congrArg (·.payload.text) hcd, ?_, congrArg (·.arguments) hcd,
    congrArg (·.hoisted) hcd⟩
  have htexts := congrArg (List.map Payload.text) hpayloads
  rwa [List.map_map, List.map_map] at htexts

/-- Who won how many of the matches, in a phrase with a fragment in a fragment; `player`,
`won` and `team` say where to find them. -/
def matchesWon (player won team : Expr) (location : Location) : Phrase where
  description := "Matches someone has won"
  options := { subject := some team }
  children :=
    [.construct (.name { name := ⟨"player"⟩, value := player, gender := team, location }),
     .fragment
      [.construct (.plural
        { singular := "match", many := some "matches", count := won, showCount := .yes,
          value := some player, location }),
       .fragment
        [.construct (.param { name := ⟨"team"⟩, value := .call team [], gender := some won })]
        location] {}]
  location

/-- Other expressions at other places make the same payload, and are fed into it in the same
way. -/
theorem compile_of_form_eq_matchesWon :
    let p := matchesWon (.identifier "player") (.identifier "won") (.identifier "team") {}
    let q := matchesWon (.call (.identifier "winner") [.string "cup"]) (.number "3")
      (.member (.identifier "cup") "team") { line := 7, column := 3 }
    p.form = q.form ∧
      ∃ c d, compile {} p = .ok c ∧ compile {} q = .ok d ∧
        c.payload.text = d.payload.text ∧
        c.fragments.map (·.payload.text) = d.fragments.map (·.payload.text) ∧
        c.arguments.map Argument.form = d.arguments.map Argument.form ∧
        c.hoisted.map Hoisted.form = d.hoisted.map Hoisted.form := by
  intro p q
  have hform : p.form = q.form := rfl
  have hp : compile {} p = .ok (assemble {} p) := compile_of_isNone_fault? (by decide +kernel)
  have hq : compile {} q = .ok (assemble {} q) := compile_of_isNone_fault? (by decide +kernel)
  exact ⟨hform, _, _, hp, hq, compile_of_form_eq hform hp hq⟩

end Phrasebook
