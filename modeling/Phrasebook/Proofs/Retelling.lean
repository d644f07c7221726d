import Phrasebook.Proofs.Levels
import Phrasebook.Proofs.Recasting

/-!
# Phrases that tell the same

One phrase **retells** another (`Phrasebook.Recasting.RetellsPhrase`) if it has the same nodes
in the same places, recast, except that a literal text may be told in two pieces. A retold
phrase is compiled to what the phrase itself is compiled to, but for the expressions and
locations that were recast (`Phrasebook.Recasting.RetellsPhrase.assemble_eq`).

The two outlines are gone through side by side, once for each thing that is made of a level.
A piece of text weighs in only where texts are put together, and there the pieces add up; it
stands on no axis, has no call and is no fragment, so no other walk meets it. That nodes have
other numbers does not show either, since the only thing asked of a number is on which axis it
stands, and the axes are recast with the nodes.
-/

namespace Phrasebook

/-! ### Other expressions in what is compiled -/

section Map

variable (e : Expr → Expr)

/-- By what the value of a param varies, with the expression changed. -/
def ParamVariation.map : ParamVariation → ParamVariation
  | none => none
  | number => number
  | gender g => gender (e g)

/-- A call with its expressions changed: the helper is the same, and so are its token and
its keys. -/
def Call.map : Call → Call
  | param token value variation => param token (e value) (variation.map e)
  | name token value gender => name token (e value) (e gender)
  | plural count token value => plural (e count) token (value.map e)
  | enumeration value keys => enumeration (e value) keys
  | pronoun usage gender human => pronoun usage (e gender) human
  | subject gender => subject (e gender)

mutual

/-- An argument with its expressions changed. The payload of a fragment holds none. -/
def Argument.map : Argument → Argument
  | .temporary index => .temporary index
  | .call call => .call (call.map e)
  | .fragment aliasName payload arguments => .fragment aliasName payload (mapArguments arguments)

/-- Some arguments with their expressions changed. -/
def mapArguments : List Argument → List Argument
  | [] => []
  | a :: rest => a.map :: mapArguments rest

end

/-- A temporary with the expressions of its call changed. -/
def Hoisted.map (h : Hoisted) : Hoisted :=
  { h with call := h.call.map e }

/-- A compiled phrase with its expressions and its location changed. -/
def CompiledPhrase.map (l : Location → Location) (c : CompiledPhrase) : CompiledPhrase :=
  { c with
    arguments := c.arguments.map (Argument.map e)
    hoisted := c.hoisted.map (Hoisted.map e)
    location := l c.location }

theorem mapArguments_eq (arguments : List Argument) :
    mapArguments e arguments = arguments.map (Argument.map e) := by
  induction arguments with
  | nil => rfl
  | cons a rest ih => rw [mapArguments, ih, List.map_cons]

theorem map_temporaries (count : Nat) :
    (temporaries count).map (Argument.map e) = temporaries count := by
  rw [temporaries, List.map_map]
  rfl

theorem Construct.call?_map (l : Location → Location) (c : Construct) :
    (c.map e l).call? = c.call?.map (Call.map e) := by
  cases c with
  | param p =>
    rcases hg : p.gender with _ | g <;> rcases hn : p.number with _ | _ <;>
      simp [Construct.map, Construct.call?, Call.map, Param.variation, ParamVariation.map, hg, hn]
  | _ => rfl

end Map

namespace Recasting

/-! ### Retelling an outline -/

/-- **One outline retells another**: it has the same nodes in the same places, recast, except
that a literal text may be told in two pieces. -/
inductive Retells (r : Recasting) : List Outline → List Outline → Prop
  | nil : Retells r [] []
  | construct (id : Nat) (c : Construct) {os os' : List Outline} (h : Retells r os os') :
    Retells r (.construct id c :: os) (.construct (r.id id) (r.construct c) :: os')
  | fragment (id ordinal : Nat) (location : Location) {children children' os os' : List Outline}
      (hchildren : Retells r children children') (h : Retells r os os') :
    Retells r (.fragment id ordinal location children :: os)
      (.fragment (r.id id) (r.ordinal ordinal) (r.location location) children' :: os')
  | split (id first second : Nat) {t u v : LiteralText} (htext : t.value = u.value ++ v.value)
      {os os' : List Outline} (h : Retells r os os') :
    Retells r (.construct id (.text t) :: os)
      (.construct first (.text u) :: .construct second (.text v) :: os')

/-- **One phrase retells another**: its outline does, and in all else it is the phrase,
recast. -/
structure RetellsPhrase (r : Recasting) (p p' : Phrase) : Prop where
  outline : r.Retells p.outline p'.outline
  description : p'.description = p.description
  options : p'.options = { p.options with subject := p.options.subject.map r.expr }
  location : p'.location = r.location p.location

variable {r : Recasting} {os os' : List Outline}

namespace Retells

theorem append (h : r.Retells os os') {ps ps' : List Outline} (h' : r.Retells ps ps') :
    r.Retells (os ++ ps) (os' ++ ps') := by
  induction h with
  | nil => exact h'
  | construct id c _ ih => exact .construct id c ih
  | fragment id ordinal location hchildren _ _ ih =>
    exact .fragment id ordinal location hchildren ih
  | split id first second htext _ ih => exact .split id first second htext ih

theorem hasFragment_eq (h : r.Retells os os') : hasFragment os' = hasFragment os := by
  induction h with
  | nil => rfl
  | construct id c _ ih => exact ih
  | fragment id ordinal location _ _ _ _ => rfl
  | split id first second htext _ ih => exact ih

/-- **Retelling keeps the levels** and their order. -/
theorem forall₂_levelsAll (h : r.Retells os os') :
    List.Forall₂ r.Retells (levelsAll os) (levelsAll os') := by
  induction h with
  | nil => exact List.Forall₂.nil
  | construct id c _ ih => exact ih
  | fragment id ordinal location hchildren _ ihchildren ih =>
    exact List.Forall₂.cons hchildren (List.rel_append ihchildren ih)
  | split id first second htext _ ih => exact ih

/-- **The axes that constructs contribute are recast** with the constructs. -/
theorem filterMap_axis? (h : r.Retells os os') (rules : Option PluralRules) :
    (constructsAll os').filterMap (Placed.axis? rules) =
      ((constructsAll os).filterMap (Placed.axis? rules)).map r.axis := by
  induction h with
  | nil => rfl
  | construct id c _ ih =>
    have haxis : Placed.axis? rules ⟨r.id id, r.construct c⟩ =
        (Placed.axis? rules ⟨id, c⟩).map r.axis := r.axis?_placed ⟨id, c⟩
    rw [constructsAll, constructsAll, Outline.constructs, Outline.constructs, List.singleton_append,
      List.singleton_append, List.filterMap_cons, List.filterMap_cons, haxis]
    cases Placed.axis? rules ⟨id, c⟩ with
    | none => exact ih
    | some a => exact congrArg _ ih
  | fragment id ordinal location _ _ ihchildren ih =>
    rw [constructsAll, constructsAll, Outline.constructs, Outline.constructs,
      List.filterMap_append, List.filterMap_append, List.map_append, ihchildren, ih]
  | split id first second htext _ ih => exact ih

/-! ### Rendering -/

/-- **A retold level reads the same**, if its nodes are given the same values. -/
theorem renderAll_eq (h : r.Retells os os') {values values' : Assignment}
    (hvalues : ∀ id, values' (r.id id) = values id) (mode : Mode) :
    renderAll values' (r.mode mode) os' = renderAll values mode os := by
  induction h generalizing mode with
  | nil => rfl
  | construct id c _ ih =>
    rw [renderAll, renderAll, Outline.render, Outline.render, hvalues, r.render_construct, ih]
  | fragment id ordinal location _ _ ihchildren ih =>
    have hname := ihchildren .tokenName
    rw [Recasting.mode] at hname
    rw [renderAll, renderAll, Outline.render, Outline.render, r.showsToken_mode, ihchildren,
      hname, ih]
  | split id first second htext _ ih =>
    simp only [renderAll, Outline.render, Construct.render, htext, String.append_assoc, ih]

/-- The token of a retold fragment is the same. -/
theorem implicitToken_eq (h : r.Retells os os') {values values' : Assignment}
    (hvalues : ∀ id, values' (r.id id) = values id) :
    implicitToken values' os' = implicitToken values os :=
  congrArg TokenName.implicit (h.renderAll_eq hvalues .tokenName)

/-- Retold fragments that keep their ordinals go by the same aliases. -/
theorem fragmentAliases_eq (h : r.Retells os os') (hordinal : ∀ n, r.ordinal n = n)
    {values values' : Assignment} (hvalues : ∀ id, values' (r.id id) = values id) :
    fragmentAliases values' os' = fragmentAliases values os := by
  induction h with
  | nil => rfl
  | construct id c _ ih => exact ih
  | fragment id ordinal location hchildren _ _ ih =>
    have ih : fragmentAliases _ _ = fragmentAliases _ _ := ih
    rw [fragmentAliases, List.filterMap_cons, fragmentAliases, List.filterMap_cons]
    exact congrArg₂ List.cons
      (by rw [hchildren.implicitToken_eq hvalues, hordinal]) ih
  | split id first second htext _ ih => exact ih

/-! ### Payloads and arguments -/

section Levels

variable {axes : List Axis} {project : String} {root root' : List Outline}

/-- **A retold level has the same payload**, if it is described alike. -/
theorem levelPayload_eq (h : r.Retells os os') (hordinal : ∀ n, r.ordinal n = n)
    {describe describe' : Signature → String} (hdescribe : ∀ s, describe' s = describe s) :
    levelPayload (axes.map r.axis) project describe' os' =
      levelPayload axes project describe os := by
  have hvalues : ∀ s : Signature, ∀ id,
      s.valueFor (axes.map r.axis) (r.id id) = s.valueFor axes id :=
    fun s id => r.valueFor_map axes s id
  have htext : ∀ s : Signature, renderAll (s.valueFor (axes.map r.axis)) .leaf os' =
      renderAll (s.valueFor axes) .leaf os := fun s => h.renderAll_eq (hvalues s) .leaf
  simp only [levelPayload, r.signatures_map, r.descriptors_map, hdescribe, htext,
    h.fragmentAliases_eq hordinal (hvalues _)]

theorem fragmentDescription_eq (h : r.Retells root root') (id : Nat) (s : Signature) :
    fragmentDescription (axes.map r.axis) root' (r.id id) s =
      fragmentDescription axes root id s := by
  have htext := h.renderAll_eq (fun id => r.valueFor_map axes s id) (.description id)
  exact congrArg (fun text => "In the phrase: \"" ++ text ++ "\"") htext

/-- **A retold level adds the same arguments**, with their expressions recast. -/
theorem sharedArgumentsAll_eq (h : r.Retells os os') (hroot : r.Retells root root')
    (hordinal : ∀ n, r.ordinal n = n) {shared : List Argument}
    (hshared : shared.map (Argument.map r.expr) = shared) :
    sharedArgumentsAll (axes.map r.axis) project root' shared os' =
      (sharedArgumentsAll axes project root shared os).map (Argument.map r.expr) := by
  induction h with
  | nil => rfl
  | construct id c _ ih =>
    rw [sharedArgumentsAll, sharedArgumentsAll, ih, List.map_append, Outline.sharedArguments,
      Outline.sharedArguments, r.drivenAxis?_map, Recasting.construct, Construct.call?_map]
    split
    · cases c.call? <;> rfl
    · rfl
  | @fragment id ordinal location children children' _ _ hchildren _ ihchildren ih =>
    have hpayload : levelPayload (axes.map r.axis) project
        (fragmentDescription (axes.map r.axis) root' (r.id id)) children' =
          levelPayload axes project (fragmentDescription axes root id) children :=
      hchildren.levelPayload_eq hordinal (hroot.fragmentDescription_eq id)
    rw [sharedArgumentsAll, sharedArgumentsAll, ih, List.map_append, Outline.sharedArguments,
      Outline.sharedArguments, hordinal, hpayload, ihchildren, List.map_singleton, Argument.map,
      mapArguments_eq, List.map_append, hshared]
  | split id first second htext _ ih =>
    simpa [sharedArgumentsAll, Outline.sharedArguments, Construct.call?] using ih

theorem filterMap_inlineCall?_eq (h : r.Retells os os') :
    os'.filterMap (Outline.inlineCall? (axes.map r.axis)) =
      (os.filterMap (Outline.inlineCall? axes)).map (Call.map r.expr) := by
  induction h with
  | nil => rfl
  | construct id c _ ih =>
    have hcall : (Outline.construct (r.id id) (r.construct c)).inlineCall? (axes.map r.axis) =
        ((Outline.construct id c).inlineCall? axes).map (Call.map r.expr) := by
      rw [Outline.inlineCall?, Outline.inlineCall?, r.drivenAxis?_map, r.leadsAxis_map,
        Recasting.construct, Construct.call?_map]
      split <;> rfl
    rw [List.filterMap_cons, List.filterMap_cons, hcall, ih]
    cases (Outline.construct id c).inlineCall? axes <;> rfl
  | fragment id ordinal location _ _ _ ih => exact ih
  | split id first second htext _ ih =>
    simpa [List.filterMap_cons, Outline.inlineCall?, Construct.call?] using ih

/-- **A retold level without fragments makes the same calls**, with their expressions
recast. -/
theorem inlineArguments_eq (h : r.Retells os os') (subject : Option Expr) :
    inlineArguments (axes.map r.axis) (subject.map r.expr) os' =
      (inlineArguments axes subject os).map (Argument.map r.expr) := by
  rw [inlineArguments, inlineArguments, h.filterMap_inlineCall?_eq, List.map_map]
  cases subject <;>
    simp [Argument.map, Call.map, Function.comp_def]

end Levels

end Retells

/-! ### Numbering -/

section Numbering

variable (e : Expr → Expr) (l : Location → Location)

mutual

theorem size_map : ∀ n : Node, (n.map e l).size = n.size
  | .construct _ => rfl
  | .fragment children _ => by rw [Node.map, Node.size, Node.size, sizeAll_mapAll children]

theorem sizeAll_mapAll : ∀ ns : List Node, sizeAll (mapAll e l ns) = sizeAll ns
  | [] => rfl
  | n :: ns => by rw [mapAll, sizeAll, sizeAll, size_map n, sizeAll_mapAll ns]

end

mutual

theorem fragmentCount_map : ∀ n : Node, (n.map e l).fragmentCount = n.fragmentCount
  | .construct _ => rfl
  | .fragment children _ => by
    rw [Node.map, Node.fragmentCount, Node.fragmentCount, fragmentCountAll_mapAll children]

theorem fragmentCountAll_mapAll : ∀ ns : List Node,
    fragmentCountAll (mapAll e l ns) = fragmentCountAll ns
  | [] => rfl
  | n :: ns => by
    rw [mapAll, fragmentCountAll, fragmentCountAll, fragmentCount_map n, fragmentCountAll_mapAll ns]

end

end Numbering

/-- A renumbering **carries** `count` numbers from `from` on to those from `to` on. -/
def Carries (f : Nat → Nat) (start start' count : Nat) : Prop :=
  ∀ j < count, f (start + j) = start' + j

theorem Carries.of_add {f : Nat → Nat} {start start' m n : Nat}
    (h : Carries f start start' (m + n)) :
    Carries f start start' m ∧ Carries f (start + m) (start' + m) n := by
  refine ⟨fun j hj => h j (by omega), fun j hj => ?_⟩
  rw [Nat.add_assoc, Nat.add_assoc]
  exact h (m + j) (by omega)

mutual

theorem retells_outline (r : Recasting) : ∀ (n : Node) {id id' ordinal ordinal' : Nat},
    Carries r.id id id' n.size → Carries r.ordinal ordinal ordinal' n.fragmentCount →
      ∀ {os os' : List Outline}, r.Retells os os' →
        r.Retells (n.outline id ordinal :: os)
          ((n.map r.expr r.location).outline id' ordinal' :: os')
  | .construct c, id, id', _, _, hid, _, os, os', h => by
    have hfirst : r.id id = id' := hid 0 Nat.one_pos
    rw [Node.map, Node.outline, Node.outline, ← hfirst]
    exact .construct id c h
  | .fragment children location, id, id', ordinal, ordinal', hid, hordinal, os, os', h => by
    -- the fragment itself takes the first number and the first ordinal
    rw [Node.size, Nat.add_comm] at hid
    rw [Node.fragmentCount, Nat.add_comm] at hordinal
    obtain ⟨hfirst, hid⟩ := hid.of_add
    obtain ⟨hfirst', hordinal⟩ := hordinal.of_add
    have hfirst : r.id id = id' := hfirst 0 Nat.one_pos
    have hfirst' : r.ordinal ordinal = ordinal' := hfirst' 0 Nat.one_pos
    have hnode := Retells.fragment id ordinal location
      (retells_outlineAll r children hid hordinal) h
    rwa [hfirst, hfirst'] at hnode

/-- **Nodes that are mapped and numbered anew are retold**, if the recasting knows of both. -/
theorem retells_outlineAll (r : Recasting) :
    ∀ (ns : List Node) {id id' ordinal ordinal' : Nat}, Carries r.id id id' (sizeAll ns) →
      Carries r.ordinal ordinal ordinal' (fragmentCountAll ns) →
        r.Retells (outlineAll id ordinal ns) (outlineAll id' ordinal' (mapAll r.expr r.location ns))
  | [], _, _, _, _, _, _ => .nil
  | n :: ns, id, id', ordinal, ordinal', hid, hordinal => by
    obtain ⟨hid, hids⟩ := Carries.of_add hid
    obtain ⟨hordinal, hordinals⟩ := Carries.of_add hordinal
    rw [outlineAll, mapAll, outlineAll, size_map, fragmentCount_map]
    exact retells_outline r n hid hordinal (retells_outlineAll r ns hids hordinals)

end

/-! ### Temporaries -/

theorem call?_axis (r : Recasting) (subject : Option Expr) (a : Axis) :
    (r.axis a).call? (subject.map r.expr) = (a.call? subject).map (Call.map r.expr) := by
  have hcontributors : (r.axis a).contributors.head?.bind (·.construct.call?) =
      (a.contributors.head?.bind (·.construct.call?)).map (Call.map r.expr) := by
    rw [axis, List.head?_map]
    cases a.contributors.head? with
    | none => rfl
    | some q => exact Construct.call?_map r.expr r.location q.construct
  rcases howner : a.owner with _ | id | keys
  · simp [Axis.call?, axis, howner, owner, Function.comp_def, Call.map]
  · simpa [Axis.call?, axis, howner, owner] using hcontributors
  · simpa [Axis.call?, axis, howner, owner] using hcontributors

/-- **The temporaries of recast axes are theirs, recast.** -/
theorem hoisted_map (r : Recasting) (subject : Option Expr) (axes : List Axis) :
    hoisted (subject.map r.expr) (axes.map r.axis) =
      (hoisted subject axes).map (Hoisted.map r.expr) := by
  rw [hoisted, hoisted, List.zipIdx_map, List.filterMap_map, List.map_filterMap]
  refine List.filterMap_congr fun x _ => ?_
  obtain ⟨a, i⟩ := x
  simp only [Function.comp_apply, Prod.map_apply, r.call?_axis]
  cases a.call? subject <;> rfl

/-! ### Retold phrases -/

/-- **A phrase has the axes of another, recast**, if its constructs contribute them and it has a
subject just when the other has one. -/
theorem axes_map (r : Recasting) {rules : Option PluralRules} {p p' : Phrase}
    (hown : (constructsAll p'.outline).filterMap (Placed.axis? rules) =
      ((constructsAll p.outline).filterMap (Placed.axis? rules)).map r.axis)
    (hsubject : p'.options.subject.isSome = p.options.subject.isSome) :
    p'.axes rules = (p.axes rules).map r.axis := by
  have hsubject : (if p'.options.subject.isSome then [subjectAxis] else []) =
      (if p.options.subject.isSome then [subjectAxis] else []).map r.axis := by
    rw [hsubject]
    split <;> rfl
  rw [Phrase.axes, Phrase.axes, hown, hsubject]
  exact r.foldl_addAxis _ _

namespace RetellsPhrase

variable {p p' : Phrase} (h : r.RetellsPhrase p p')

include h

/-- **The axes of a retold phrase are those of the phrase, recast.** -/
theorem axes_eq (rules : Option PluralRules) : p'.axes rules = (p.axes rules).map r.axis :=
  r.axes_map (h.outline.filterMap_axis? rules) (by rw [h.options, Option.isSome_map])

/-- **A retold phrase is compiled alike**: but for expressions and locations, which are
recast, it is compiled to the same, as long as its fragments keep their ordinals. -/
theorem assemble_eq (hordinal : ∀ n, r.ordinal n = n) (config : Config) :
    assemble config p' = (assemble config p).map r.expr r.location := by
  have hshared := map_temporaries r.expr
  simp only [assemble, CompiledPhrase.map, h.axes_eq config.rules, h.outline.hasFragment_eq,
    h.description, h.options, h.location, r.hoisted_map,
    h.outline.levelPayload_eq hordinal fun _ => rfl]
  split
  · simp only [List.length_map, List.map_append, hshared,
      h.outline.sharedArgumentsAll_eq h.outline hordinal (hshared _)]
  · simp only [h.outline.inlineArguments_eq, List.map_nil]

end RetellsPhrase

end Recasting

end Phrasebook
