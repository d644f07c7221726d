import Mathlib.Data.List.Forall2
import Phrasebook.CallSite

/-!
# The options of a call, and the count among them

The options of a call are read in two passes. The first goes over the object literal and looks at
every key; the second asks for one option after the other, and looks at a value only then. What the
second pass sees of the literal is the value under each key, so two literals that hold the same
values are told apart by nothing but their keys.

The case of interest is a literal that holds **one option more** than another
(`Phrasebook.CallOptions.Extends`). If the key is allowed, the first pass does not mind it, wherever
the option stands (`Phrasebook.CallOptions.parse_insert`), and the second pass sees it only where it
is asked for. A plural asks for its count once, before any other option, and takes it from an
argument as well, so that the two ways to give a count cannot be told apart by what comes of the
call (`Phrasebook.Plural.ofCall_count_as_option`). The one exception is in the notation: a literal
that is the last of two arguments is taken for the options, whatever it is meant for.
-/

namespace Phrasebook

/-! ### Readings that succeed -/

/-- A computation that succeeds in two steps succeeds in the first. -/
theorem exists_of_bind_eq_ok {ε α β : Type} {x : Except ε α} {f : α → Except ε β} {b : β}
    (h : (x >>= f) = .ok b) : ∃ a, x = .ok a ∧ f a = .ok b := by
  cases x with
  | error e => exact nomatch h
  | ok a => exact ⟨a, rfl, h⟩

/-- **A list is read if each of its items is**, to what the items are read to. -/
theorem mapM_eq_ok_iff {ε α β : Type} {f : α → Except ε β} {xs : List α} {ys : List β} :
    xs.mapM f = .ok ys ↔ List.Forall₂ (fun x y => f x = .ok y) xs ys := by
  induction xs generalizing ys with
  | nil =>
    rw [List.mapM_nil, List.forall₂_nil_left_iff]
    exact ⟨fun h => (Except.ok.inj h).symm, fun h => congrArg Except.ok h.symm⟩
  | cons x xs ih =>
    rw [List.mapM_cons, List.forall₂_cons_left_iff]
    constructor
    · intro h
      obtain ⟨y, hy, h⟩ := exists_of_bind_eq_ok h
      obtain ⟨rest, hrest, h⟩ := exists_of_bind_eq_ok h
      exact ⟨y, rest, hy, ih.mp hrest, (Except.ok.inj h).symm⟩
    · rintro ⟨y, rest, hy, hrest, rfl⟩
      rw [hy, ih.mpr hrest]
      rfl

namespace CallOptions

variable {allowed : List String} {location : Location} {key k : String} {value : Expr}

theorem entry_eq_ok_iff {p : Property} :
    entry allowed location p = .ok (key, value) ↔
      p.name? = some key ∧ key ∈ allowed ∧ p.value = value := by
  unfold entry
  cases p.name? with
  | none => simp
  | some name =>
    by_cases hname : name ∈ allowed
    · simp only [if_pos hname, Except.ok.injEq, Prod.mk.injEq, Option.some.injEq]
      exact ⟨fun ⟨h, h'⟩ => ⟨h, h ▸ hname, h'⟩, fun ⟨h, _, h'⟩ => ⟨h, h'⟩⟩
    · simp only [if_neg hname, reduceCtorEq, false_iff, Option.some.injEq]
      rintro ⟨rfl, hallowed, -⟩
      exact hname hallowed

/-- The keys that are read are the names of the properties. -/
theorem map_name?_of_mapM {properties : List Property} {entries : List (String × Expr)}
    (h : properties.mapM (entry allowed location) = .ok entries) :
    properties.map (·.name?) = entries.map (some ·.1) := by
  rw [← List.forall₂_eq_eq_eq, List.forall₂_map_left_iff, List.forall₂_map_right_iff]
  exact (mapM_eq_ok_iff.mp h).imp fun _ _ hentry => (entry_eq_ok_iff.mp hentry).1

/-! ### One option more -/

/-- **One option more**: `more` holds a value under a key where `options` holds none, and is like
`options` in all else. -/
structure Extends (key : String) (value : Expr) (options more : CallOptions) : Prop where
  location : more.location = options.location
  get?_before : options.get? key = none
  get?_after : more.get? key = some value
  get?_of_ne : ∀ k, k ≠ key → more.get? k = options.get? k

namespace Extends

variable {options more : CallOptions}

theorem string?_of_ne (h : Extends key value options more) (hk : k ≠ key) :
    more.string? k = options.string? k := by
  rw [string?, string?, h.get?_of_ne k hk, h.location]

theorem showCount_of_ne (h : Extends key value options more) (hk : k ≠ key) :
    more.showCount k = options.showCount k := by
  rw [showCount, showCount, h.get?_of_ne k hk, h.location]

end Extends

theorem extends_insert {before after : List (String × Expr)}
    (hnew : ∀ e ∈ before ++ after, e.1 ≠ key) :
    Extends key value ⟨before ++ after, location⟩ ⟨before ++ (key, value) :: after, location⟩ := by
  have habsent : (before ++ after).lookup key = none :=
    List.lookup_eq_none_iff.mpr fun e he => bne_iff_ne.mpr (hnew e he).symm
  have hbefore : before.lookup key = none := by
    rw [List.lookup_append, Option.or_eq_none_iff] at habsent
    exact habsent.1
  refine ⟨rfl, habsent, ?_, fun k hk => ?_⟩
  · rw [get?, List.lookup_append, hbefore, Option.none_or, List.lookup_cons_self]
  · rw [get?, get?, List.lookup_append, List.lookup_append, List.lookup_cons,
      beq_false_of_ne hk]

/-- **An allowed option is put in anywhere.** The options are rejected as they were without it, or
they hold one option more. -/
theorem parse_insert (location : Location) {before after : List Property} {p : Property}
    (hp : p.name? = some key) (hallowed : key ∈ allowed)
    (hnew : ∀ q ∈ before ++ after, q.name? ≠ some key) :
    (∃ e, parse allowed location (some (.object (before ++ after))) = .error e ∧
      parse allowed location (some (.object (before ++ p :: after))) = .error e) ∨
    ∃ options more, parse allowed location (some (.object (before ++ after))) = .ok options ∧
      parse allowed location (some (.object (before ++ p :: after))) = .ok more ∧
      options.Extends key p.value more := by
  have hentry : entry allowed location p = .ok (key, p.value) :=
    entry_eq_ok_iff.mpr ⟨hp, hallowed, rfl⟩
  rw [parse, parse, List.mapM_append, List.mapM_append, List.mapM_cons, hentry]
  cases hxs : before.mapM (entry allowed location) with
  | error e => exact .inl ⟨e, rfl, rfl⟩
  | ok xs =>
    cases hys : after.mapM (entry allowed location) with
    | error e => exact .inl ⟨e, rfl, rfl⟩
    | ok ys =>
      refine .inr ⟨⟨xs ++ ys, location⟩, ⟨xs ++ (key, p.value) :: ys, location⟩, rfl, rfl, ?_⟩
      refine extends_insert fun e he hkey => ?_
      have hnames : (before ++ after).map (·.name?) = (xs ++ ys).map (some ·.1) := by
        rw [List.map_append, List.map_append, map_name?_of_mapM hxs, map_name?_of_mapM hys]
      have hmem : some key ∈ (before ++ after).map (·.name?) :=
        hnames ▸ List.mem_map.mpr ⟨e, he, congrArg some hkey⟩
      obtain ⟨q, hq, hname⟩ := List.mem_map.mp hmem
      exact hnew q hq hname

end CallOptions

/-! ### The count of a plural -/

namespace Plural

variable {location : Location}

/-- A plural is the same whether its count is an argument or one option more. -/
theorem ofArguments_insert {singular : String} (before after : List Property) {p : Property}
    (hp : p.name? = some "count") (hnew : ∀ q ∈ before ++ after, q.name? ≠ some "count") :
    ofArguments location singular (some p.value) (some (.object (before ++ after))) =
      ofArguments location singular none (some (.object (before ++ p :: after))) := by
  rw [ofArguments, ofArguments]
  have hallowed : "count" ∈ ["value", "showCount", "name", "many", "count"] := by decide
  rcases CallOptions.parse_insert location hp hallowed hnew with
    ⟨e, h, h'⟩ | ⟨options, more, h, h', hmore⟩
  · rw [h, h']
    rfl
  · -- both calls get the same count, and no option is asked for under its key again
    simp only [h, h', bind, Except.bind, hmore.get?_before, hmore.get?_after, countOf,
      hmore.get?_of_ne "many" (by decide), hmore.get?_of_ne "value" (by decide),
      hmore.showCount_of_ne (k := "showCount") (by decide),
      hmore.string?_of_ne (k := "name") (by decide)]

/-- **A count as an argument or as an option.** A plural's count may be given as the second of
three arguments, or anywhere among the options that are then the second of two; and if there are no
other options, as the second of two arguments or as the only option, unless the count is itself an
object literal. The plural is the same, or it is rejected alike. -/
theorem ofCall_count_as_option (location : Location) (singular count : Expr) (key : StaticKey)
    (hkey : key.denotes = "count") :
    (∀ before after : List Property, (∀ p ∈ before ++ after, p.name? ≠ some "count") →
      ofCall location [singular, count, .object (before ++ after)] =
        ofCall location [singular, .object (before ++ .static key count :: after)]) ∧
    ((∀ properties, count ≠ .object properties) →
      ofCall location [singular, count] =
        ofCall location [singular, .object [.static key count]]) := by
  have hname : (Property.static key count).name? = some "count" := congrArg some hkey
  refine ⟨fun before after hnew => ?_, fun hcount => ?_⟩
  · refine bind_congr fun text => ?_
    exact ofArguments_insert before after hname hnew
  · have hempty : ∀ text, ofArguments location text (some count) none =
        ofArguments location text (some count) (some (.object [])) := fun _ => rfl
    have hsecond : ofCall location [singular, count] =
        (knownText location "fbt.plural" "the singular form" singular >>= fun text =>
          ofArguments location text (some count) none) := by
      cases count with
      | object properties => exact absurd rfl (hcount properties)
      | _ => rfl
    rw [hsecond]
    refine bind_congr fun text => ?_
    exact (hempty text).trans (ofArguments_insert [] [] hname fun _ => nofun)

/-- The count of photos, given as an argument, between two options, and as the only option. -/
theorem ofCall_count_as_option_photos :
    ofCall {} [.string "photo", .object [],
        .object [.static (.name "showCount") (.string "yes"),
          .static (.name "name") (.string "total")]] =
      ofCall {} [.string "photo",
        .object [.static (.name "showCount") (.string "yes"),
          .static (.string "count") (.object []), .static (.name "name") (.string "total")]] ∧
    ofCall {} [.string "photo", .identifier "n"] =
      ofCall {} [.string "photo", .object [.static (.string "count") (.identifier "n")]] :=
  ⟨(ofCall_count_as_option {} (.string "photo") (.object []) (.string "count") rfl).1
      [.static (.name "showCount") (.string "yes")] [.static (.name "name") (.string "total")]
      (by decide),
    (ofCall_count_as_option {} (.string "photo") (.identifier "n") (.string "count") rfl).2
      fun _ => nofun⟩

end Plural

end Phrasebook
