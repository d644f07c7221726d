import Phrasebook.Proofs.Pieces
import Phrasebook.Proofs.RuntimeNames
import Phrasebook.Proofs.Wordings

/-!
# Filling placeholders

A level is rendered at run time from its own wording and its own arguments, so the
arguments should supply what its placeholders stand for. With the temporaries looked up,
the arguments of a level make the calls of all axes and those of the plain params that
stand on the level. That is enough for every construct that shows a token of its own, and
a fragment is supplied on the level it stands on.

A construct that refers back to a token is another matter, since its declaration may
stand on any level. What varies is called ahead of the phrase and shared; a plain param
is called once, on the level it stands on. So a token that a plain param declares is
supplied on that level and on no other (`Phrasebook.compile_fills_placeholders`), and a
fragment may show a placeholder that none of its own arguments fills
(`Phrasebook.not_fills_placeholders`): a reader has to look for it in the phrase.
-/

namespace Phrasebook

/-! ### The calls of a level -/

/-- The call an argument makes, if `hoisted` are the temporaries. -/
def Argument.made? (hoisted : List Hoisted) : Argument → Option Call
  | .temporary i => hoisted[i]?.map (·.call)
  | .call made => some made
  | .fragment _ _ _ => none

/-- **The calls that supply a level**, its temporaries looked up. -/
def CompiledLevel.calls (hoisted : List Hoisted) (l : CompiledLevel) : List Call :=
  l.arguments.filterMap (Argument.made? hoisted)

/-- The call of a plain param that stands on a level. -/
def Outline.plainCall? : Outline → Option Call
  | .construct _ c => c.plainCall?
  | .fragment _ _ _ _ => none

theorem filterMap_getElem?_range {α β : Type} (f : α → β) (l : List α) :
    (List.range l.length).filterMap (fun i => l[i]?.map f) = l.map f := by
  induction l with
  | nil => rfl
  | cons a l ih =>
    rw [List.length_cons, List.range_succ_eq_map, List.map_cons, ← ih]
    exact congrArg (f a :: ·) List.filterMap_map

/-- Looking up all temporaries gives the calls they stand for. -/
theorem filterMap_made?_temporaries (hoisted : List Hoisted) :
    (temporaries hoisted.length).filterMap (Argument.made? hoisted) = hoisted.map (·.call) := by
  rw [temporaries, List.filterMap_map]
  exact filterMap_getElem?_range _ hoisted

theorem filterMap_made?_calls (hoisted : List Hoisted) (calls : List Call) :
    (calls.map Argument.call).filterMap (Argument.made? hoisted) = calls := by
  rw [List.filterMap_map]
  exact List.filterMap_some

section Levels

variable {axes : List Axis} {project : String} {root level : List Outline}
  {shared : List Argument} {hoisted : List Hoisted}

/-- Of its own a level makes the calls of the plain params that stand on it. -/
theorem filterMap_made?_sharedArgumentsAll (haccount : AccountFor axes (constructsAll level)) :
    (sharedArgumentsAll axes project root shared level).filterMap (Argument.made? hoisted) =
      level.filterMap Outline.plainCall? := by
  induction level with
  | nil => rfl
  | cons o level ih =>
    obtain ⟨ho, hlevel⟩ := AccountFor.of_append haccount
    rw [sharedArgumentsAll, List.filterMap_append, ih hlevel]
    cases o with
    | construct id c =>
      rw [sharedArguments_construct (ho ⟨id, c⟩ (List.mem_singleton_self _))]
      cases h : c.plainCall? <;> simp [Outline.plainCall?, h, Argument.made?]
    | fragment id ordinal location children => rfl

variable {config : Config} {p : Phrase} {l : CompiledLevel}

/-- **With fragments, a level is supplied by the calls of all axes** and by those of the
plain params that stand on it. -/
theorem calls_level_of_hasFragments (hl : p.CompilesLevel config level l) (h : p.HasFragments) :
    l.calls (assemble config p).hoisted = axisCalls p.options.subject (p.axes config.rules) ++
      level.filterMap Outline.plainCall? := by
  have haccount : AccountFor (p.axes config.rules) (constructsAll level) := fun q hq =>
    p.accountFor config.rules q (Phrase.placed_of_mem_levels hl.mem hq)
  rw [CompiledLevel.calls, hl.arguments, Phrase.argumentsOf, if_pos h, List.filterMap_append,
    filterMap_made?_sharedArgumentsAll haccount, Phrase.sharedTemporaries,
    filterMap_made?_temporaries, (assemble_of_hasFragments config h).1,
    (p.hoisted_axes config.rules).2]

/-- Without fragments, the only level is supplied by all calls there are. -/
theorem calls_level_of_not_hasFragments (hl : p.CompilesLevel config level l)
    (h : ¬p.HasFragments) : l.calls (assemble config p).hoisted = (assemble config p).calls := by
  obtain ⟨rfl, -⟩ := Phrase.eq_outline_of_mem_levels h hl.mem
  rw [CompiledLevel.calls, hl.arguments, ← arguments_assemble_eq, arguments_assemble h,
    filterMap_made?_calls, calls_of_not_hasFragments h]

end Levels

/-! ### Where a token is supplied -/

section Supply

variable {config : Config} {rules : Option PluralRules} {p : Phrase} {q : Placed} {t : TokenName}
  {call : Call}

/-- **No two constructs of a phrase declare one token.** -/
theorem Phrase.eq_of_token? (honce : p.DeclaresOnce) {r : Placed} (hq : q ∈ p.placed)
    (hr : r ∈ p.placed) (hqt : q.construct.token? = some t) (hrt : r.construct.token? = some t) :
    q = r := by
  rw [Phrase.DeclaresOnce, ← p.declaredTokens_placed, declaredTokens, List.Nodup,
    List.pairwise_filterMap] at honce
  have : Std.Symm fun q r : Placed => ∀ b, q.construct.token? = some b →
      ∀ b', r.construct.token? = some b' → b ≠ b' :=
    ⟨fun q r h b hb b' hb' he => h b' hb' b hb he.symm⟩
  by_contra hne
  exact honce.forall hq hr hne t hqt t hrt rfl

theorem Construct.token?_of_call? {c : Construct} (h : c.call? = some call) :
    call.token? = c.token? := by
  rw [← Construct.token?_call?, h, Option.bind_some]

/-- A construct that declares a token makes a call, which fills it. -/
theorem Construct.exists_call?_of_token? {c : Construct} (ht : c.token? = some t) :
    ∃ call, c.call? = some call ∧ call.token? = some t := by
  rw [← Construct.token?_call?] at ht
  exact Option.bind_eq_some_iff.mp ht

/-- The call of a construct that declares a token is made ahead exactly if the construct
varies. -/
theorem mem_axisCalls_iff (hq : q ∈ p.placed) (ht : q.construct.token? = some t)
    (hcall : q.construct.call? = some call) :
    call ∈ axisCalls p.options.subject (p.axes rules) ↔ q.construct.varies = true := by
  constructor
  · intro hmem
    rw [← Construct.drives_of_call? hcall]
    exact drives_of_mem_axisCalls hmem
  · intro hvaries
    have hlead := Placed.leadsAxis_of_token? rules hq ht hvaries
    rw [Phrase.axisCalls_eq, List.mem_append]
    exact Or.inr (List.mem_filterMap.mpr ⟨q, List.mem_filter.mpr ⟨hq, hlead⟩, hcall⟩)

/-- The call of a plain param is among those of a level exactly if the param stands on
it. -/
theorem mem_plainCalls_iff (honce : p.DeclaresOnce) {level : List Outline}
    (hlevel : level ∈ p.levels) (hq : q ∈ p.placed) (ht : q.construct.token? = some t)
    (hcall : q.construct.call? = some call) :
    call ∈ level.filterMap Outline.plainCall? ↔
      ¬q.construct.varies = true ∧ .construct q.id q.construct ∈ level := by
  rw [List.mem_filterMap]
  constructor
  · rintro ⟨⟨id, c⟩ | _, ho, hplain⟩
    · -- the two calls fill one token, so they are made by one construct
      have hplain : c.plainCall? = some call := hplain
      have hcallc := hplain
      rw [Construct.plainCall?_eq] at hcallc
      split at hcallc
      · exact nomatch hcallc
      · rename_i hvaries
        have htoken : c.token? = some t := by
          rw [← Construct.token?_of_call? hcallc, Construct.token?_of_call? hcall, ht]
        have hplaced := Phrase.placed_of_mem_levels hlevel (mem_constructsAll_of_mem ho)
        obtain rfl := Phrase.eq_of_token? honce hq hplaced ht htoken
        exact ⟨hvaries, ho⟩
    · exact nomatch hplain
  · rintro ⟨hvaries, ho⟩
    refine ⟨_, ho, ?_⟩
    rw [Outline.plainCall?, (Construct.plainCall?_of_token? ht hvaries).1, hcall]

/-- The call of a construct that declares a token is made somewhere. -/
theorem mem_calls_of_token? (hq : q ∈ p.placed) (ht : q.construct.token? = some t)
    (hcall : q.construct.call? = some call) : call ∈ (assemble config p).calls := by
  by_cases h : p.HasFragments
  · rw [calls_of_hasFragments h, List.mem_append, mem_axisCalls_iff hq ht hcall]
    by_cases hvaries : q.construct.varies = true
    · exact Or.inl hvaries
    · have hplain := (Construct.plainCall?_of_token? ht hvaries).1
      exact Or.inr (List.mem_filterMap.mpr
        ⟨q.construct, Phrase.construct_mem hq, hplain.trans hcall⟩)
  · have hplace := Placed.calledInPlace_of_token? config.rules hq ht
    rw [calls_of_not_hasFragments h, List.mem_append]
    exact Or.inr (List.mem_filterMap.mpr ⟨q, List.mem_filter.mpr ⟨hq, hplace⟩, hcall⟩)

/-- **A call that fills a token supplies a level exactly if its construct varies or stands
on the level.** -/
theorem mem_calls_level_iff (honce : p.DeclaresOnce) {level : List Outline} {l : CompiledLevel}
    (hl : p.CompilesLevel config level l) (hq : q ∈ p.placed) (ht : q.construct.token? = some t)
    (hcall : q.construct.call? = some call) :
    call ∈ l.calls (assemble config p).hoisted ↔
      q.construct.varies = true ∨ .construct q.id q.construct ∈ level := by
  by_cases h : p.HasFragments
  · rw [calls_level_of_hasFragments hl h, List.mem_append, mem_axisCalls_iff hq ht hcall,
      mem_plainCalls_iff honce hl.mem hq ht hcall]
    tauto
  · -- on the only level there is, every construct stands and every call is made
    obtain ⟨rfl, hlevel⟩ := Phrase.eq_outline_of_mem_levels h hl.mem
    refine iff_of_true ?_ (Or.inr (mem_of_mem_constructsAll hlevel hq))
    rw [calls_level_of_not_hasFragments hl h]
    exact mem_calls_of_token? hq ht hcall

end Supply

/-! ### Filling what a level shows -/

/-- **A placeholder that a node shows is filled on its level**: that of a construct by a
call for its token, and that of a fragment by the fragment, under the alias that the leaf
gives for the token. -/
def Outline.FilledOn (hoisted : List Hoisted) (l : CompiledLevel) (leaf : Leaf)
    (t : TokenName) : Outline → Prop
  | .construct _ _ => ∃ call ∈ l.calls hoisted, call.token? = some t
  | .fragment _ ordinal _ _ => (t, ⟨"=m" ++ toString ordinal⟩) ∈ leaf.tokenAliases ∧
    ∃ payload arguments, .fragment ⟨"=m" ++ toString ordinal⟩ payload arguments ∈ l.arguments

/-- **A token that a node refers back to is filled in the phrase**: the construct that
declares it makes a call for it, which also supplies this level exactly if that construct
varies or stands on the level. -/
def CompiledPhrase.FillsBack (c : CompiledPhrase) (p : Phrase) (level : List Outline)
    (l : CompiledLevel) (t : TokenName) : Prop :=
  ∃ q ∈ p.placed, ∃ call ∈ c.calls, t ∈ q.construct.declared ∧
    q.construct.call? = some call ∧ call.token? = some t ∧
    (call ∈ l.calls c.hoisted ↔
      q.construct.varies = true ∨ .construct q.id q.construct ∈ level)

/-- **The placeholders of a wording are filled**: the text of the leaf is made of the
pieces that the nodes of the level show, and each placeholder among them is filled on the
level, unless its node refers back; then it is filled in the phrase. -/
structure CompiledPhrase.Fills (c : CompiledPhrase) (p : Phrase) (level : List Outline)
    (l : CompiledLevel) (values : Assignment) (leaf : Leaf) : Prop where
  text : leaf.text = textOf (level.flatMap (Outline.pieces values))
  own : ∀ o ∈ level, o.refersBack = false → ∀ t, .placeholder t ∈ o.pieces values →
    o.FilledOn c.hoisted l leaf t
  back : ∀ o ∈ level, o.refersBack = true → ∀ t, .placeholder t ∈ o.pieces values →
    c.FillsBack p level l t

section Filling

variable {config : Config} {p : Phrase} {level : List Outline} {l : CompiledLevel}

/-- A construct that shows its own token is supplied on its level. -/
theorem exists_call_level (honce : p.DeclaresOnce) (hl : p.CompilesLevel config level l)
    {id : Nat} {c : Construct} (hc : .construct id c ∈ level) {t : TokenName}
    (ht : c.token? = some t) :
    ∃ call ∈ l.calls (assemble config p).hoisted, call.token? = some t := by
  obtain ⟨call, hcall, hfill⟩ := Construct.exists_call?_of_token? ht
  have hplaced := Phrase.placed_of_mem_levels hl.mem (mem_constructsAll_of_mem hc)
  exact ⟨call, (mem_calls_level_iff honce hl hplaced ht hcall).mpr (Or.inr hc), hfill⟩

/-- What a construct refers back to is filled in the phrase. -/
theorem fillsBack_assemble (hresolve : p.ReferencesResolve) (honce : p.DeclaresOnce)
    (hl : p.CompilesLevel config level l) {id : Nat} {s : SameParam}
    (hs : .construct id (.sameParam s) ∈ level) :
    (assemble config p).FillsBack p level l s.name := by
  have hplaced := Phrase.placed_of_mem_levels hl.mem (mem_constructsAll_of_mem hs)
  obtain ⟨before, after, hsplit⟩ := List.append_of_mem (Phrase.construct_mem hplaced)
  obtain ⟨d, hd, hdeclared⟩ := hresolve before s after hsplit
  obtain ⟨q, hq, rfl⟩ := Phrase.exists_placed (hsplit ▸ List.mem_append_left _ hd)
  have ht := Construct.mem_declared.mp hdeclared
  obtain ⟨call, hcall, hfill⟩ := Construct.exists_call?_of_token? ht
  exact ⟨q, hq, call, mem_calls_of_token? hq ht hcall, hdeclared, hcall, hfill,
    mem_calls_level_iff honce hl hq ht hcall⟩

/-- **The placeholders of a level are filled** under every signature. -/
theorem fills_level (hwf : p.WellFormed config.rules) (hl : p.CompilesLevel config level l)
    (describe : Signature → String) (s : Signature) :
    (assemble config p).Fills p level l (s.valueFor (p.axes config.rules))
      (levelLeaf (p.axes config.rules) describe level s) := by
  refine ⟨(textOf_pieces level _).symm, fun o ho hback t ht => ?_, fun o ho hback t ht => ?_⟩
  · cases o with
    | construct id c =>
      refine exists_call_level hwf.declaresOnce hl ho (Construct.token?_of_placeholder_mem ht ?_)
      rintro same rfl
      exact Bool.false_ne_true hback.symm
    | fragment id ordinal location children =>
      obtain rfl : t = implicitToken (s.valueFor (p.axes config.rules)) children := by
        simpa [Outline.pieces] using ht
      exact ⟨List.mem_filterMap.mpr ⟨_, ho, rfl⟩, hl.fragment_mem ho⟩
  · obtain ⟨id, same, rfl⟩ := Outline.exists_sameParam hback
    obtain rfl : t = same.name := by simpa [Outline.pieces, Construct.pieces] using ht
    exact fillsBack_assemble hwf.referencesResolve hwf.declaresOnce hl ho

end Filling

/-- **Every placeholder can be filled**: on every level and under every signature there is
a wording whose placeholders are filled on the level, or in the phrase where a node refers
back. -/
theorem compile_fills_placeholders {config : Config} {p : Phrase} {c : CompiledPhrase}
    (h : compile config p = .ok c) :
    List.Forall₂ (fun level l => ∀ s : Signature, s.Chooses (p.axes config.rules) →
        ∃ leaf, l.payload.table.get? s.path = some leaf ∧
          c.Fills p level l (s.valueFor (p.axes config.rules)) leaf)
      p.levels c.levels := by
  obtain ⟨hwf, rfl⟩ := compile_eq_ok_iff.mp h
  refine (compilesLevels config p).imp fun level l hl s hs => ?_
  obtain ⟨describe, hlists⟩ := hl.lists
  exact ⟨_, hlists.get?_path s hs, fills_level hwf hl describe s⟩

/-- A phrase whose fragment refers back to a name and to a plain param. -/
def photoShared : Phrase where
  description := "Who shared photos, and where"
  children :=
    [.construct (.name
      { name := ⟨"author"⟩, value := .identifier "author", gender := .identifier "g" }),
     .construct (.param { name := ⟨"album"⟩, value := .identifier "album" }),
     .fragment
      [.construct (.plural { singular := "photo", count := .identifier "n", showCount := .yes }),
       .construct (.sameParam { name := ⟨"author"⟩ }),
       .construct (.sameParam { name := ⟨"album"⟩ })] {}]

/-- On both its levels the placeholders are filled, here where the count is shown. -/
theorem compile_fills_placeholders_photoShared : ∃ c, compile {} photoShared = .ok c ∧
    List.Forall₂ (fun level l => ∃ leaf, l.payload.table.get? ["*", "*"] = some leaf ∧
        c.Fills photoShared level l
          (Signature.valueFor (photoShared.axes none) [.any, .any]) leaf)
      photoShared.levels c.levels := by
  have h : compile {} photoShared = .ok (assemble {} photoShared) :=
    compile_of_isNone_fault? (by decide +kernel)
  have hs : Signature.Chooses [.any, .any] (photoShared.axes none) :=
    mem_signatures.mp (by decide +kernel)
  exact ⟨_, h, (compile_fills_placeholders h).imp fun level l hl => hl _ hs⟩

/-- A phrase whose fragment refers back to a plain param outside of it. -/
def messageWritten : Phrase where
  description := "Who wrote a message"
  children :=
    [.construct (.param { name := ⟨"user"⟩, value := .identifier "user" }),
     .construct (.text { value := " wrote " }),
     .fragment
      [.construct (.text { value := "to " }), .construct (.sameParam { name := ⟨"user"⟩ })] {}]

/-- **Not every placeholder is filled on its level**: the fragment shows a token for which
it is given no argument. -/
theorem not_fills_placeholders : ¬∀ (config : Config) (p : Phrase) (c : CompiledPhrase),
    compile config p = .ok c →
      List.Forall₂ (fun level l => ∀ s : Signature, s.Chooses (p.axes config.rules) →
          ∃ leaf, l.payload.table.get? s.path = some leaf ∧
            ∀ o ∈ level, ∀ t, .placeholder t ∈ o.pieces (s.valueFor (p.axes config.rules)) →
              o.FilledOn c.hoisted l leaf t)
        p.levels c.levels := by
  intro hall
  have h : compile {} messageWritten = .ok (assemble {} messageWritten) :=
    compile_of_isNone_fault? (by decide +kernel)
  rcases hall {} messageWritten _ h with _ | ⟨-, _ | ⟨hfragment, -⟩⟩
  obtain ⟨leaf, -, hfilled⟩ := hfragment [] List.Forall₂.nil
  obtain ⟨call, hcall, -⟩ := hfilled (.construct 4 (.sameParam { name := ⟨"user"⟩ }))
    (List.mem_cons_of_mem _ List.mem_cons_self) ⟨"user"⟩ List.mem_cons_self
  exact nomatch hcall

end Phrasebook
