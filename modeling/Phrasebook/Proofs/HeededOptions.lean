import Phrasebook.Proofs.EnumRange

/-!
# Options that are heeded

A construct **heeds** an option if the value of the option is of the kind the construct asks for,
and the construct carries it (`Phrasebook.Param.Heeds` and its like for plurals, pronouns and
phrases). All the calls that take options do so in the same way (`Phrasebook.TakesOptions`): they
take an object literal and nothing else, none of its keys is unknown or computed, and an option is
heeded unless another of the same name stands before it. Such an option is not looked at: the call
comes to the same without it (`Phrasebook.calls_heed_options`).

The keys of all properties are looked at when the options are parsed, the values only when the
options are asked for, and what is then found is the first under its key
(`Phrasebook.CallOptions.get?_of_parse`). So it is enough to know of each construct that it asks for
all that it allows. That a repeated option does not count is seen without a look at the constructs:
whatever is asked of the options, they answer alike (`Phrasebook.CallOptions.Alike`).
-/

namespace Phrasebook

/-! ### What an option asks for -/

/-- **An expression says yes or no**: as a literal, or as the text of one. -/
inductive Expr.SaysWhether : Expr → Bool → Prop
  | bool (b : Bool) : SaysWhether (.bool b) b
  | yes : SaysWhether (.string "true") true
  | no : SaysWhether (.string "false") false

theorem Expr.bool?_eq_some_iff {e : Expr} {b : Bool} : e.bool? = some b ↔ e.SaysWhether b := by
  constructor
  · intro h
    rw [bool?.eq_def] at h
    split at h
    · obtain rfl := Option.some.inj h
      exact .bool _
    · split_ifs at h with hyes hno
      · obtain rfl := Option.some.inj h
        exact hyes ▸ .yes
      · obtain rfl := Option.some.inj h
        exact hno ▸ .no
    · exact nomatch h
  · rintro (_ | _ | _) <;> rfl

theorem Expr.eq_string_of_string? {e : Expr} {text : String} (h : e.string? = some text) :
    e = .string text := by
  cases e with
  | string value => exact congrArg Expr.string (Option.some.inj h)
  | _ => exact nomatch h

theorem ShowCount.name_of_ofName? {name : String} {s : ShowCount} (h : ofName? name = some s) :
    s.name = name := by
  simpa using List.find?_some h

/-- **The options a param heeds.** -/
inductive Param.Heeds (p : Param) : String → Expr → Prop
  | gender {e : Expr} (h : p.gender = some e) : p.Heeds "gender" e
  | number {e : Expr} (h : e.SaysWhether p.number) : p.Heeds "number" e

/-- **The options a plural heeds.** -/
inductive Plural.Heeds (p : Plural) : String → Expr → Prop
  | value {e : Expr} (h : p.value = some e) : p.Heeds "value" e
  | showCount : p.Heeds "showCount" (.string p.showCount.name)
  | name {token : TokenName} (h : p.name = some token) : p.Heeds "name" (.string token.text)
  | many {e : Expr} {text : String} (h : p.many = some text) (he : e.AddsUpTo text) :
    p.Heeds "many" e
  | count : p.Heeds "count" p.count

/-- **The options a pronoun heeds.** -/
inductive Pronoun.Heeds (p : Pronoun) : String → Expr → Prop
  | human {e : Expr} (h : e.SaysWhether p.human) : p.Heeds "human" e
  | capitalize {e : Expr} (h : e.SaysWhether p.capitalize) : p.Heeds "capitalize" e

/-- **The options a phrase heeds.** -/
inductive PhraseOptions.Heeds (o : PhraseOptions) : String → Expr → Prop
  | author {text : String} (h : o.author = some text) : o.Heeds "author" (.string text)
  | project {text : String} (h : o.project = some text) : o.Heeds "project" (.string text)
  | doNotExtract {e : Expr} (h : e.SaysWhether o.doNotExtract) : o.Heeds "doNotExtract" e
  | subject {e : Expr} (h : o.subject = some e) : o.Heeds "subject" e

/-- **An object literal is heeded** by a reading of its properties: in what is read, every property
has a key that is known and allowed, and is heeded unless another of its name stands before it; such
a property may as well be left out. -/
structure HeedsProperties {α : Type} (allowed : List String) (heeds : α → String → Expr → Prop)
    (read : List Property → Except CompileError α) : Prop where
  heeded : ∀ properties a, read properties = .ok a →
    ∀ before p after, properties = before ++ p :: after → ∃ key ∈ allowed, p.name? = some key ∧
      ((∀ q ∈ before, q.name? ≠ some key) → heeds a key p.value)
  repeated : ∀ before p after, (∃ q ∈ before, q.name? = p.name?) →
    read (before ++ p :: after) = read (before ++ after)

/-- **An argument is taken for options**: it must be an object literal, and that is heeded. -/
structure TakesOptions {α : Type} (allowed : List String) (heeds : α → String → Expr → Prop)
    (read : Expr → Except CompileError α) : Prop where
  isObject : ∀ options a, read options = .ok a → ∃ properties, options = .object properties
  properties : HeedsProperties allowed heeds fun properties => read (.object properties)

namespace CallOptions

variable {allowed : List String} {location : Location}

/-! ### Options that are asked for -/

/-- A list of properties is read part by part. -/
theorem mapM_entry_append_cons {before after : List Property} {p : Property}
    {entries : List (String × Expr)}
    (h : (before ++ p :: after).mapM (entry allowed location) = .ok entries) :
    ∃ xs e ys, before.mapM (entry allowed location) = .ok xs ∧ entry allowed location p = .ok e ∧
      entries = xs ++ e :: ys := by
  rw [List.mapM_append, List.mapM_cons] at h
  obtain ⟨xs, hxs, h⟩ := exists_of_bind_eq_ok h
  obtain ⟨rest, hrest, h⟩ := exists_of_bind_eq_ok h
  obtain ⟨e, he, hrest⟩ := exists_of_bind_eq_ok hrest
  obtain ⟨ys, -, hrest⟩ := exists_of_bind_eq_ok hrest
  refine ⟨xs, e, ys, hxs, he, ?_⟩
  rw [← Except.ok.inj h, ← Except.ok.inj hrest]

/-- A property among those that are read is read. -/
theorem exists_entry_of_mem {properties : List Property} {entries : List (String × Expr)}
    (h : properties.mapM (entry allowed location) = .ok entries) {p : Property}
    (hp : p ∈ properties) : ∃ e ∈ entries, entry allowed location p = .ok e := by
  obtain ⟨before, after, rfl⟩ := List.append_of_mem hp
  obtain ⟨xs, e, ys, -, he, rfl⟩ := mapM_entry_append_cons h
  exact ⟨e, List.mem_append_right _ List.mem_cons_self, he⟩

/-- Nothing is found under a key that no property has. -/
theorem lookup_eq_none_of_mapM {properties : List Property} {entries : List (String × Expr)}
    (h : properties.mapM (entry allowed location) = .ok entries) {key : String}
    (hkey : ∀ q ∈ properties, q.name? ≠ some key) : entries.lookup key = none := by
  refine List.lookup_eq_none_iff.mpr fun e he => bne_iff_ne.mpr ?_
  rintro rfl
  have hmem : some e.1 ∈ properties.map (·.name?) :=
    map_name?_of_mapM h ▸ List.mem_map.mpr ⟨e, he, rfl⟩
  obtain ⟨q, hq, hname⟩ := List.mem_map.mp hmem
  exact hkey q hq hname

/-- **The first property under a key is found under it**, and all keys are allowed. -/
theorem get?_of_parse {options : CallOptions} {before after : List Property} {p : Property}
    (h : parse allowed location (some (.object (before ++ p :: after))) = .ok options) :
    ∃ key ∈ allowed, p.name? = some key ∧
      ((∀ q ∈ before, q.name? ≠ some key) → options.get? key = some p.value) := by
  obtain ⟨entries, hentries, h⟩ := exists_of_bind_eq_ok h
  obtain rfl := Except.ok.inj h
  obtain ⟨xs, ⟨key, value⟩, ys, hxs, hentry, rfl⟩ := mapM_entry_append_cons hentries
  obtain ⟨hname, hallowed, rfl⟩ := entry_eq_ok_iff.mp hentry
  refine ⟨key, hallowed, hname, fun hfirst => ?_⟩
  rw [get?, List.lookup_append, lookup_eq_none_of_mapM hxs hfirst, Option.none_or,
    List.lookup_cons_self]

section Getters

variable {options : CallOptions} {key : String} {e : Expr}

theorem saysWhether_of_flag {b : Bool} (h : options.flag key = .ok b)
    (hget : options.get? key = some e) : e.SaysWhether b := by
  rw [flag, hget] at h
  dsimp only at h
  split at h
  · rename_i hbool
    exact Except.ok.inj h ▸ Expr.bool?_eq_some_iff.mp hbool
  · contradiction

theorem eq_string_of_string? {text : Option String} (h : options.string? key = .ok text)
    (hget : options.get? key = some e) : ∃ value, text = some value ∧ e = .string value := by
  rw [string?, hget] at h
  dsimp only at h
  split at h
  · rename_i value hstring
    exact ⟨value, (Except.ok.inj h).symm, Expr.eq_string_of_string? hstring⟩
  · contradiction

theorem eq_string_of_showCount {s : ShowCount} (h : options.showCount key = .ok s)
    (hget : options.get? key = some e) : e = .string s.name := by
  rw [showCount, hget] at h
  dsimp only at h
  split at h
  · rename_i hname
    obtain ⟨name, hstring, hname⟩ := Option.bind_eq_some_iff.mp hname
    rw [← Except.ok.inj h, ShowCount.name_of_ofName? hname]
    exact Expr.eq_string_of_string? hstring
  · contradiction

end Getters

/-! ### Options that are left out -/

/-- **Options that answer alike** whatever they are asked for. -/
structure Alike (options options' : CallOptions) : Prop where
  location : options.location = options'.location
  get? : ∀ key, options.get? key = options'.get? key

namespace Alike

variable {options options' : CallOptions} (h : Alike options options') (key : String)

include h

theorem flag_eq : options.flag key = options'.flag key := by
  rw [flag, flag, h.get?, h.location]

theorem string?_eq : options.string? key = options'.string? key := by
  rw [string?, string?, h.get?, h.location]

theorem showCount_eq : options.showCount key = options'.showCount key := by
  rw [showCount, showCount, h.get?, h.location]

end Alike

theorem alike_repeated {xs ys : List (String × Expr)} {key : String} {value : Expr}
    (h : ∃ e ∈ xs, e.1 = key) :
    Alike ⟨xs ++ (key, value) :: ys, location⟩ ⟨xs ++ ys, location⟩ where
  location := rfl
  get? k := by
    rw [CallOptions.get?, CallOptions.get?, List.lookup_append, List.lookup_append,
      List.lookup_cons]
    by_cases hk : k = key
    · -- the first under the key stands before both
      obtain ⟨e, he, rfl⟩ := h
      obtain ⟨v, hv⟩ : ∃ v, xs.lookup k = some v := by
        refine Option.ne_none_iff_exists'.mp fun hnone => ?_
        exact bne_iff_ne.mp (List.lookup_eq_none_iff.mp hnone e he) hk
      rw [hv, Option.some_or, Option.some_or]
    · rw [beq_false_of_ne hk]

/-- **A repeated option may be left out**, whatever is then asked for. -/
theorem parse_bind_repeated {α : Type} {f : CallOptions → Except CompileError α}
    (hf : ∀ {options options'}, Alike options options' → f options = f options')
    {before after : List Property} {p : Property} (hp : ∃ q ∈ before, q.name? = p.name?) :
    (parse allowed location (some (.object (before ++ p :: after))) >>= f) =
      (parse allowed location (some (.object (before ++ after))) >>= f) := by
  rw [parse, parse, List.mapM_append, List.mapM_append, List.mapM_cons]
  cases hxs : before.mapM (entry allowed location) with
  | error e => rfl
  | ok xs =>
    -- the property before was read, so its key is known and allowed
    obtain ⟨q, hq, hsame⟩ := hp
    obtain ⟨⟨key, value⟩, he, hq⟩ := exists_entry_of_mem hxs hq
    obtain ⟨hname, hallowed, -⟩ := entry_eq_ok_iff.mp hq
    have hentry : entry allowed location p = .ok (key, p.value) :=
      entry_eq_ok_iff.mpr ⟨hsame ▸ hname, hallowed, rfl⟩
    rw [hentry]
    cases hys : after.mapM (entry allowed location) with
    | error e => rfl
    | ok ys => exact hf (alike_repeated ⟨_, he, rfl⟩)

end CallOptions

/-- Nothing but an object literal holds options. -/
theorem exists_object_of_parse {allowed : List String} {location : Location} {e : Expr}
    {options : CallOptions} (h : CallOptions.parse allowed location (some e) = .ok options) :
    ∃ properties, e = .object properties := by
  cases e with
  | object properties => exact ⟨properties, rfl⟩
  | _ => exact nomatch h

/-- **What is asked for is heeded**, by a reading that asks for all the options it allows. -/
theorem TakesOptions.of_parse {α : Type} {allowed : List String}
    {heeds : α → String → Expr → Prop} {location : Location} {f : CallOptions → Except CompileError α}
    (hf : ∀ {options options'}, options.Alike options' → f options = f options')
    (hasks : ∀ {options a}, f options = .ok a → ∀ key ∈ allowed, ∀ e, options.get? key = some e →
      heeds a key e) :
    TakesOptions allowed heeds fun e => CallOptions.parse allowed location (some e) >>= f where
  isObject e a h := by
    obtain ⟨options, hparse, -⟩ := exists_of_bind_eq_ok h
    exact exists_object_of_parse hparse
  properties :=
    { heeded := fun properties a h before p after hproperties => by
        obtain ⟨options, hparse, hread⟩ := exists_of_bind_eq_ok h
        subst hproperties
        obtain ⟨key, hkey, hname, hget⟩ := CallOptions.get?_of_parse hparse
        exact ⟨key, hkey, hname, fun hfirst => hasks hread key hkey _ (hget hfirst)⟩
      repeated := fun before p after hp => CallOptions.parse_bind_repeated hf hp }

/-- Another argument is read before the options. -/
theorem HeedsProperties.bind {α β : Type} {allowed : List String}
    {heeds : α → String → Expr → Prop} (x : Except CompileError β)
    {read : β → List Property → Except CompileError α}
    (h : ∀ b, HeedsProperties allowed heeds (read b)) :
    HeedsProperties allowed heeds fun properties => x >>= fun b => read b properties where
  heeded properties a hread := by
    obtain ⟨b, -, hread⟩ := exists_of_bind_eq_ok hread
    exact (h b).heeded properties a hread
  repeated before p after hp := bind_congr fun b => (h b).repeated before p after hp

/-- Another argument is read before the options. -/
theorem TakesOptions.bind {α β : Type} {allowed : List String} {heeds : α → String → Expr → Prop}
    (x : Except CompileError β) {read : β → Expr → Except CompileError α}
    (h : ∀ b, TakesOptions allowed heeds (read b)) :
    TakesOptions allowed heeds fun e => x >>= fun b => read b e where
  isObject e a hread := by
    obtain ⟨b, -, hread⟩ := exists_of_bind_eq_ok hread
    exact (h b).isObject e a hread
  properties := .bind x fun b => (h b).properties

/-! ### The calls that take options -/

section Calls

variable (location : Location)

theorem Param.takesOptions (name value : Expr) :
    TakesOptions ["gender", "number"] Param.Heeds fun options =>
      ofCall location [name, value, options] := by
  refine .bind (knownText location "fbt.param" "the name" name) fun text => ?_
  refine .of_parse (fun h => ?_) fun {options p} h key hkey e hget => ?_
  · simp only [h.get?, h.flag_eq]
  · obtain ⟨number, hnumber, h⟩ := exists_of_bind_eq_ok h
    split at h
    · exact nomatch h
    · obtain rfl := Except.ok.inj h
      simp only [List.mem_cons, List.not_mem_nil, or_false] at hkey
      rcases hkey with rfl | rfl
      · exact .gender hget
      · exact .number (CallOptions.saysWhether_of_flag hnumber hget)

/-- The plural wording that is asked for is the one that is given. -/
theorem Plural.exists_many {given : Option Expr} {rest : Option String → Except CompileError Plural}
    {p : Plural}
    (h : (match given with
      | some many => (some <$> knownText location "fbt.plural" "the `many` option" many) >>= rest
      | none => pure none >>= rest) = .ok p) :
    ∃ many, (∀ e, given = some e → ∃ text, many = some text ∧ e.AddsUpTo text) ∧
      rest many = .ok p := by
  cases given with
  | none => exact ⟨none, fun e he => (nomatch he), h⟩
  | some e =>
    obtain ⟨many, hmany, h⟩ := exists_of_bind_eq_ok h
    cases htext : knownText location "fbt.plural" "the `many` option" e with
    | error err =>
      rw [htext] at hmany
      exact nomatch hmany
    | ok text =>
      rw [htext] at hmany
      obtain rfl := Except.ok.inj hmany
      refine ⟨some text, fun e' he' => ⟨text, rfl, ?_⟩, h⟩
      rw [← Option.some.inj he']
      exact knownText_eq_ok_iff.mp htext

theorem Plural.takesOptions_ofArguments (singular : String) (count : Option Expr) :
    TakesOptions ["value", "showCount", "name", "many", "count"] Plural.Heeds fun options =>
      ofArguments location singular count (some options) := by
  refine .of_parse (fun h => ?_) fun {options p} h key hkey e hget => ?_
  · simp only [h.get?, h.showCount_eq, h.string?_eq]
  · obtain ⟨counted, hcount, h⟩ := exists_of_bind_eq_ok h
    obtain ⟨many, hmany, h⟩ := Plural.exists_many location h
    obtain ⟨shown, hshown, h⟩ := exists_of_bind_eq_ok h
    obtain ⟨name, hname, h⟩ := exists_of_bind_eq_ok h
    obtain rfl := Except.ok.inj h
    simp only [List.mem_cons, List.not_mem_nil, or_false] at hkey
    rcases hkey with rfl | rfl | rfl | rfl | rfl
    · exact .value hget
    · rw [CallOptions.eq_string_of_showCount hshown hget]
      exact .showCount
    · obtain ⟨token, rfl, rfl⟩ := CallOptions.eq_string_of_string? hname hget
      exact .name rfl
    · obtain ⟨text, rfl, htext⟩ := hmany e hget
      exact .many rfl htext
    · rw [hget] at hcount
      cases count with
      | none =>
        obtain rfl := Except.ok.inj hcount
        exact .count
      | some other => exact nomatch hcount

theorem Pronoun.takesOptions (usage gender : Expr) :
    TakesOptions ["human", "capitalize"] Pronoun.Heeds fun options =>
      ofCall location [usage, gender, options] := by
  refine .bind (usageOf location usage) fun u => ?_
  refine .of_parse (fun h => ?_) fun {options p} h key hkey e hget => ?_
  · simp only [h.flag_eq]
  · obtain ⟨human, hhuman, h⟩ := exists_of_bind_eq_ok h
    obtain ⟨capitalize, hcapitalize, h⟩ := exists_of_bind_eq_ok h
    obtain rfl := Except.ok.inj h
    simp only [List.mem_cons, List.not_mem_nil, or_false] at hkey
    rcases hkey with rfl | rfl
    · exact .human (CallOptions.saysWhether_of_flag hhuman hget)
    · exact .capitalize (CallOptions.saysWhether_of_flag hcapitalize hget)

theorem PhraseOptions.takesOptions :
    TakesOptions ["author", "project", "doNotExtract", "subject"] PhraseOptions.Heeds fun options =>
      ofArgument location (some options) := by
  refine .of_parse (fun h => ?_) fun {options p} h key hkey e hget => ?_
  · simp only [h.get?, h.flag_eq, h.string?_eq]
  · obtain ⟨author, hauthor, h⟩ := exists_of_bind_eq_ok h
    obtain ⟨project, hproject, h⟩ := exists_of_bind_eq_ok h
    obtain ⟨doNotExtract, hextract, h⟩ := exists_of_bind_eq_ok h
    obtain rfl := Except.ok.inj h
    simp only [List.mem_cons, List.not_mem_nil, or_false] at hkey
    rcases hkey with rfl | rfl | rfl | rfl
    · obtain ⟨text, rfl, rfl⟩ := CallOptions.eq_string_of_string? hauthor hget
      exact .author rfl
    · obtain ⟨text, rfl, rfl⟩ := CallOptions.eq_string_of_string? hproject hget
      exact .project rfl
    · exact .doNotExtract (CallOptions.saysWhether_of_flag hextract hget)
    · exact .subject hget

/-- **Every call that takes options heeds them**, unless they are repeated. Options are an object
literal of known keys. Each has a value of the kind that is asked for, and the construct carries
it, if it is the first of its name; if it is not, the call comes to the same without it, whatever
its value. -/
theorem calls_heed_options :
    (∀ name value, TakesOptions ["gender", "number"] Param.Heeds fun options =>
      Param.ofCall location [name, value, options]) ∧
    (∀ singular count, TakesOptions ["value", "showCount", "name", "many", "count"] Plural.Heeds
      fun options => Plural.ofCall location [singular, count, options]) ∧
    (∀ singular, HeedsProperties ["value", "showCount", "name", "many", "count"] Plural.Heeds
      fun properties => Plural.ofCall location [singular, .object properties]) ∧
    (∀ usage gender, TakesOptions ["human", "capitalize"] Pronoun.Heeds fun options =>
      Pronoun.ofCall location [usage, gender, options]) ∧
    TakesOptions ["author", "project", "doNotExtract", "subject"] PhraseOptions.Heeds fun options =>
      PhraseOptions.ofArgument location (some options) := by
  refine ⟨Param.takesOptions location, fun singular count => ?_, fun singular => ?_,
    Pronoun.takesOptions location, PhraseOptions.takesOptions location⟩
  · exact .bind _ fun text => Plural.takesOptions_ofArguments location text (some count)
  · exact .bind _ fun text => (Plural.takesOptions_ofArguments location text none).properties

end Calls

/-- The options of a plural, one of them given again with a value that is none of those it takes. -/
def photoOptions : List Property :=
  [.static (.name "showCount") (.string "ifMany"), .static (.name "count") (.identifier "n"),
    .static (.string "showCount") (.string "never")]

/-- The plural with these options: when it shows its count is said by the first. -/
def photos : Plural where
  singular := "photo"
  count := .identifier "n"
  showCount := .ifMany

theorem calls_heed_options_photos :
    Plural.ofCall {} [.string "photo", .object photoOptions] = .ok photos ∧
      photos.Heeds "showCount" (.string "ifMany") ∧
      Plural.ofCall {} [.string "photo", .object photoOptions] =
        Plural.ofCall {} [.string "photo", .object (photoOptions.take 2)] := by
  have hcall : Plural.ofCall {} [.string "photo", .object photoOptions] = .ok photos := rfl
  have hheeds := (calls_heed_options {}).2.2.1 (.string "photo")
  obtain ⟨key, -, hname, hfirst⟩ := hheeds.heeded photoOptions photos hcall [] _ _ rfl
  obtain rfl := Option.some.inj hname
  exact ⟨hcall, hfirst fun _ => nofun,
    hheeds.repeated (photoOptions.take 2) (.static (.string "showCount") (.string "never")) []
      ⟨_, List.mem_cons_self, rfl⟩⟩

/-- **Not every option is heeded**: a param is accepted with a second `number` that says neither yes
nor no. -/
theorem not_heeds_every_option : ¬∀ (name value : Expr) (properties : List Property) (p : Param),
    Param.ofCall {} [name, value, .object properties] = .ok p →
      ∀ q ∈ properties, ∃ key, q.name? = some key ∧ p.Heeds key q.value := by
  intro hall
  have hcall : Param.ofCall {} [.string "a", .identifier "x",
      .object [.static (.name "number") (.bool true),
        .static (.name "number") (.string "maybe")]] =
      .ok { name := ⟨"a"⟩, value := .identifier "x", number := true } := rfl
  obtain ⟨key, -, hheeds⟩ := hall _ _ _ _ hcall (.static (.name "number") (.string "maybe"))
    (List.mem_cons_of_mem _ List.mem_cons_self)
  cases hheeds with
  | gender h => exact nomatch h
  | number h =>
    have hsays : (Expr.string "maybe").bool? = some true := Expr.bool?_eq_some_iff.mpr h
    exact absurd hsays (by decide)

end Phrasebook
