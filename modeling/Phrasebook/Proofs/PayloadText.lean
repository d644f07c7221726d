import Mathlib.Data.List.Basic
import Phrasebook.Payload
import Phrasebook.Proofs.Json

/-!
# The text of a payload loses nothing

A payload is written out once and read by others, so two payloads must not read alike
(`Phrasebook.Payload.text_eq_iff`). As JSON can be read in one way only, this is a question
about JSON values.

Two things could be lost on the way to a value. Leaves and branches are both written as
objects, and an author may call the keys of an enumeration `desc`, `text` and
`tokenAliases`; but what a branch leads to is written as an object in turn, while a leaf
begins with a string (`Phrasebook.TextTable.toJson_inj`). And a descriptor is silent about
the count one where it has no branch of its own; but then the object is over after two
entries (`Phrasebook.Descriptor.toJson_inj`).
-/

namespace Phrasebook

/-! ### Descriptors -/

theorem VariationType.code_inj {v w : VariationType} (h : v.code = w.code) : v = w := by
  have hcode := congrArg VariationType.ofCode? h
  rw [VariationType.ofCode?_code, VariationType.ofCode?_code] at hcode
  exact Option.some.inj hcode

theorem TokenName.text_inj {s t : TokenName} (h : s.text = t.text) : s = t :=
  congrArg TokenName.mk h

/-- **A descriptor is written in full**: what it leaves out, it would say otherwise. -/
theorem Descriptor.toJson_inj {d e : Descriptor} (h : d.toJson = e.toJson) : d = e := by
  obtain ⟨token, variation, singular⟩ := d
  obtain ⟨token', variation', singular'⟩ := e
  simp only [Descriptor.toJson, Json.object.injEq, List.cons_append, List.nil_append,
    List.cons.injEq, Prod.mk.injEq, Json.string.injEq, Json.number.injEq, true_and] at h
  obtain ⟨htoken, hvariation, hsingular⟩ := h
  obtain rfl := TokenName.text_inj htoken
  obtain rfl := VariationType.code_inj hvariation
  cases singular <;> cases singular'
  · rfl
  · exact nomatch hsingular
  · exact nomatch hsingular
  · rfl

theorem descriptorToJson_injective : Function.Injective fun (d : Option Descriptor) =>
    match d with
    | some d => d.toJson
    | none => Json.null := by
  intro a b h
  rcases a with _ | d <;> rcases b with _ | e
  · rfl
  · exact nomatch h
  · exact nomatch h
  · exact congrArg some (Descriptor.toJson_inj h)

/-! ### Text tables -/

theorem aliasToJson_injective : Function.Injective fun ((t, a) : TokenName × TokenName) =>
    (t.text, Json.string a.text) := by
  rintro ⟨t, a⟩ ⟨u, b⟩ h
  obtain ⟨htoken, halias⟩ := Prod.mk.inj h
  obtain rfl := TokenName.text_inj htoken
  obtain rfl := TokenName.text_inj (Json.string.inj halias)
  rfl

theorem Leaf.toJson_inj {l m : Leaf} (h : l.toJson = m.toJson) : l = m := by
  obtain ⟨description, text, tokenAliases⟩ := l
  obtain ⟨description', text', tokenAliases'⟩ := m
  simp only [Leaf.toJson, Json.object.injEq, List.cons.injEq, Prod.mk.injEq, Json.string.injEq,
    true_and, and_true] at h
  obtain ⟨rfl, rfl, haliases⟩ := h
  rw [aliasToJson_injective.list_map haliases]

namespace TextTable

/-- Every table is written as an object. -/
theorem exists_toJson_eq (t : TextTable) : ∃ entries, t.toJson = .object entries := by
  cases t <;> exact ⟨_, rfl⟩

/-- **No branch is written like a leaf**, whatever its keys: a leaf begins with a string. -/
theorem leaf_toJson_ne (l : Leaf) (entries : List (String × TextTable)) :
    l.toJson ≠ (branch entries).toJson := by
  intro h
  rw [Leaf.toJson, toJson] at h
  rcases entries with _ | ⟨⟨key, t⟩, entries⟩
  · exact nomatch h
  · obtain ⟨inner, ht⟩ := t.exists_toJson_eq
    have hfirst := (Prod.mk.inj (List.cons.inj (Json.object.inj h)).1).2
    rw [ht] at hfirst
    exact nomatch hfirst

mutual

/-- **Tables that are written alike are the same**, down to the order of their branches. -/
theorem toJson_inj : ∀ t u : TextTable, t.toJson = u.toJson → t = u
  | leaf _, leaf _, h => congrArg leaf (Leaf.toJson_inj h)
  | leaf l, branch entries, h => absurd h (leaf_toJson_ne l entries)
  | branch entries, leaf l, h => absurd h.symm (leaf_toJson_ne l entries)
  | branch entries, branch entries', h =>
    congrArg branch (entriesToJson_inj entries entries' (Json.object.inj h))

theorem entriesToJson_inj : ∀ entries entries' : List (String × TextTable),
    entriesToJson entries = entriesToJson entries' → entries = entries'
  | [], [], _ => rfl
  | [], _ :: _, h => nomatch h
  | _ :: _, [], h => nomatch h
  | (key, t) :: rest, (key', t') :: rest', h => by
    obtain ⟨hentry, hrest⟩ := List.cons.inj h
    obtain ⟨rfl, ht⟩ := Prod.mk.inj hentry
    rw [toJson_inj t t' ht, entriesToJson_inj rest rest' hrest]

end

end TextTable

/-! ### Payloads -/

namespace Payload

theorem toJson_inj {p q : Payload} (h : p.toJson = q.toJson) : p = q := by
  obtain ⟨table, descriptors, project⟩ := p
  obtain ⟨table', descriptors', project'⟩ := q
  simp only [toJson, Json.object.injEq, List.cons.injEq, Prod.mk.injEq, Json.array.injEq,
    Json.string.injEq, true_and, and_true] at h
  obtain ⟨⟨htable, hdescriptors⟩, rfl⟩ := h
  rw [TextTable.toJson_inj table table' htable, descriptorToJson_injective.list_map hdescriptors]

/-- **The text of a payload determines the payload.** -/
theorem text_eq_iff (p q : Payload) : p.text = q.text ↔ p = q :=
  ⟨fun h => toJson_inj (Json.text_inj h), congrArg text⟩

end Payload

end Phrasebook
