import Phrasebook.Proofs.AxisPartition
import Phrasebook.Proofs.Wordings

/-!
# A level varies with its own axes

The tables of a compiled phrase all run over all its axes, so that one path leads to a leaf in each
of them. A fragment is therefore listed once for every choice made anywhere in the phrase, also for
choices that it has no part in. Such choices do not show: an axis **bears on** a level if one of its
contributors stands on the level, or inside a fragment on it (`Phrasebook.Axis.BearsOn`), and what
is chosen on all other axes leaves the text of the level and its token aliases as they are
(`Phrasebook.compile_varies_with_own_axes`). It may show in the description, which quotes the
phrase around.

An enumeration in a fragment may share its axis with one outside, and then the axis bears on both.
Hence axes are compared by their place among the axes of the phrase, and a construct is led to its
place by its number, which no other contributor of any axis has.
-/

namespace Phrasebook

/-! ### The values a text is made of -/

section Congruence

variable {values values' : Assignment}

mutual

theorem Outline.render_congr : ∀ (o : Outline) (mode : Mode),
    (∀ q ∈ o.constructs, values q.id = values' q.id) → o.render values mode = o.render values' mode
  | .construct id c, mode, h => by
    rw [Outline.render, Outline.render, h ⟨id, c⟩ (List.mem_singleton_self _)]
  | .fragment id ordinal location children, mode, h => by
    rw [Outline.render, Outline.render, renderAll_congr children .tokenName h,
      renderAll_congr children mode h]

/-- **What nodes read as depends on the values of the constructs in them**, and on no others. -/
theorem renderAll_congr : ∀ (os : List Outline) (mode : Mode),
    (∀ q ∈ constructsAll os, values q.id = values' q.id) →
      renderAll values mode os = renderAll values' mode os
  | [], _, _ => rfl
  | o :: os, mode, h => by
    obtain ⟨ho, hos⟩ := List.forall_mem_append.mp h
    rw [renderAll, renderAll, Outline.render_congr o mode ho, renderAll_congr os mode hos]

end

/-- The token aliases of a level depend on the values of the constructs in it. -/
theorem fragmentAliases_congr {level : List Outline}
    (h : ∀ q ∈ constructsAll level, values q.id = values' q.id) :
    fragmentAliases values level = fragmentAliases values' level := by
  rw [fragmentAliases, fragmentAliases]
  refine List.filterMap_congr fun o ho => ?_
  cases o with
  | construct id c => rfl
  | fragment id ordinal location children =>
    have hn : ⟨id, ordinal, location, children⟩ ∈ fragmentNodesIn level :=
      mem_fragmentNodesIn_of_mem (List.mem_filterMap.mpr ⟨_, ho, rfl⟩)
    have hchildren : ∀ q ∈ constructsAll children, values q.id = values' q.id :=
      fun q hq => h q (constructsAll_of_mem_fragmentNodesIn level hn q hq)
    simp only [implicitToken, renderAll_congr children .tokenName hchildren]

end Congruence

/-! ### Signatures that agree on a level -/

/-- **An axis bears on a level** if one of its contributors stands on the level, or inside a
fragment on it. -/
def Axis.BearsOn (a : Axis) (level : List Outline) : Prop :=
  ∃ q ∈ a.contributors, q ∈ constructsAll level

/-- **Two signatures agree on a level**: they choose alike on every axis that bears on it. -/
def Signature.AgreeOn (axes : List Axis) (level : List Outline) (s t : Signature) : Prop :=
  ∀ (i : Nat) (a : Axis), axes[i]? = some a → a.BearsOn level → s[i]? = t[i]?

/-- Signatures that agree on a level give its constructs the same values. -/
theorem valueFor_eq_of_agreeOn {rules : Option PluralRules} {p : Phrase} {level : List Outline}
    {s t : Signature} (hlevel : level ∈ p.levels)
    (h : Signature.AgreeOn (p.axes rules) level s t) {q : Placed} (hq : q ∈ constructsAll level) :
    s.valueFor (p.axes rules) q.id = t.valueFor (p.axes rules) q.id := by
  rw [Signature.valueFor, Signature.valueFor]
  cases hi : drivenAxis? (p.axes rules) q.id with
  | none => rfl
  | some i =>
    obtain ⟨a, r, ha, hr, hid⟩ := Phrase.drivenAxis?_eq_some_iff.mp hi
    have hrp := ((Phrase.mem_contributors (List.mem_of_getElem? ha)).mp hr).1
    -- the contributor that was found by its number is the construct itself
    obtain rfl : r = q :=
      List.inj_on_of_nodup_map p.nodup_ids hrp (Phrase.placed_of_mem_levels hlevel hq) hid
    exact h i a ha ⟨r, hr, hq⟩

/-- **A leaf varies with the axes of its own level only.** On every level of a compiled phrase, any
two signatures that agree on the level lead to leaves with the same text and the same token
aliases, whatever else they choose. -/
theorem compile_varies_with_own_axes {config : Config} {p : Phrase} {c : CompiledPhrase}
    (h : compile config p = .ok c) :
    List.Forall₂ (fun level l => ∀ s t : Signature, s.Chooses (p.axes config.rules) →
        t.Chooses (p.axes config.rules) → Signature.AgreeOn (p.axes config.rules) level s t →
        ∃ m n : Leaf, l.payload.table.get? s.path = some m ∧
          l.payload.table.get? t.path = some n ∧ m.text = n.text ∧
          m.tokenAliases = n.tokenAliases)
      p.levels c.levels := by
  obtain ⟨-, rfl⟩ := compile_eq_ok_iff.mp h
  refine (compilesLevels config p).imp ?_
  intro level l hl s t hs ht hagree
  obtain ⟨describe, hlists⟩ := hl.lists
  have hvalues : ∀ q ∈ constructsAll level, s.valueFor (p.axes config.rules) q.id =
      t.valueFor (p.axes config.rules) q.id := fun q hq => valueFor_eq_of_agreeOn hl.mem hagree hq
  exact ⟨_, _, hlists.get?_path s hs, hlists.get?_path t ht, renderAll_congr level .leaf hvalues,
    fragmentAliases_congr hvalues⟩

/-- Where a team plays, as one text or as another. -/
def venue (home away : String) : Enumeration where
  value := .identifier "venue"
  range := [⟨"home", home⟩, ⟨"away", away⟩]

/-- A phrase that counts lost games. Its fragment reads differently at home and away, as the phrase
around it does, but it does not count. -/
def gamesLost : Phrase where
  description := "Games a team has lost"
  children :=
    [.construct (.enumeration (venue "The hosts" "The guests")),
     .construct (.text { value := " lost " }),
     .construct (.plural
       { singular := "game", count := .identifier "count", showCount := .yes }),
     .fragment
      [.construct (.text { value := " on " }),
       .fragment [.construct (.enumeration (venue "their own" "foreign"))] {},
       .construct (.text { value := " ground" })] {}]

/-- At home its fragment reads the same for one game and for many. -/
theorem compile_varies_with_own_axes_gamesLost :
    let s : Signature := [.key "home", .exactlyOne]
    let t : Signature := [.key "home", .any]
    let level := outlineAll 4 1
      [.construct (.text { value := " on " }),
       .fragment [.construct (.enumeration (venue "their own" "foreign"))] {},
       .construct (.text { value := " ground" })]
    ∃ c l, compile {} gamesLost = .ok c ∧ s.Chooses (gamesLost.axes none) ∧
      t.Chooses (gamesLost.axes none) ∧ Signature.AgreeOn (gamesLost.axes none) level s t ∧
      gamesLost.levels[1]? = some level ∧ c.levels[1]? = some l ∧
      ∃ m n : Leaf, l.payload.table.get? s.path = some m ∧
        l.payload.table.get? t.path = some n ∧ m.text = n.text ∧
        m.tokenAliases = n.tokenAliases := by
  intro s t level
  have h : compile {} gamesLost = .ok (assemble {} gamesLost) :=
    compile_of_isNone_fault? (by decide +kernel)
  have hs : s.Chooses (gamesLost.axes none) := mem_signatures.mp (by decide)
  have ht : t.Chooses (gamesLost.axes none) := mem_signatures.mp (by decide)
  have hagree : Signature.AgreeOn (gamesLost.axes none) level s t := by
    rintro (_ | _ | i) a ha ⟨q, hq, hlevel⟩
    · rfl
    · -- the count is no construct of the fragment
      cases ha
      obtain rfl := List.mem_singleton.mp hq
      exact absurd (List.mem_map_of_mem (f := Placed.id) hlevel) (by decide)
    · rfl
  rcases compile_varies_with_own_axes h with _ | ⟨-, _ | ⟨hfragment, -⟩⟩
  exact ⟨_, _, h, hs, ht, hagree, rfl, rfl, hfragment s t hs ht hagree⟩

end Phrasebook
