import Phrasebook.Proofs.Place

/-!
# How literal text is cut up

Where one literal text ends and the next begins depends on how a source is read, and a phrase
does not depend on it: a text that is cut in two is compiled to the same, at any depth and for
any cut, the empty pieces included (`Phrasebook.compile_cut_text`).

A phrase with a text cut in two retells the phrase, with room made for the second piece. That
settles what it is compiled to if it is compiled. It is rejected for the same fault as well,
because no check looks at literal texts, and because what the checks do look at keeps its
expressions and its locations: the numbers of nodes are the only thing that changes
(`Phrasebook.Recasting.Renumbers`).
-/

namespace Phrasebook

/-! ### Expressions that stay as they are -/

theorem Call.map_id (call : Call) : call.map id = call := by
  cases call with
  | param token value variation => cases variation <;> rfl
  | plural count token value => cases value <;> rfl
  | _ => rfl

mutual

theorem Argument.map_id : ∀ a : Argument, a.map id = a
  | .temporary _ => rfl
  | .call call => congrArg Argument.call call.map_id
  | .fragment aliasName payload arguments => by rw [Argument.map, mapArguments_id arguments]

theorem mapArguments_id : ∀ arguments : List Argument, mapArguments id arguments = arguments
  | [] => rfl
  | a :: rest => by rw [mapArguments, Argument.map_id a, mapArguments_id rest]

end

theorem CompiledPhrase.map_id (c : CompiledPhrase) : c.map id id = c := by
  have harguments : c.arguments.map (Argument.map id) = c.arguments := by
    rw [← mapArguments_eq, mapArguments_id]
  have hhoisted : c.hoisted.map (Hoisted.map id) = c.hoisted :=
    List.map_id'' (fun h => by rw [Hoisted.map, Call.map_id]) c.hoisted
  rw [CompiledPhrase.map, harguments, hhoisted, id]

/-! ### Literal texts among declarations -/

/-- Whether a construct is literal text. -/
def Construct.isText : Construct → Bool
  | text _ => true
  | _ => false

theorem Construct.token?_of_isText {c : Construct} (h : c.isText = true) : c.token? = none := by
  cases c <;> simp [Construct.isText] at h ⊢
  rfl

/-- Literal texts declare nothing and refer to nothing. -/
theorem declarationFault?_filter (known : List TokenName) (cs : List Construct) :
    declarationFault? known (cs.filter (!·.isText)) = declarationFault? known cs := by
  induction cs generalizing known with
  | nil => rfl
  | cons c cs ih =>
    cases c with
    | text t => exact ih known
    | _ =>
      rw [List.filter_cons_of_pos rfl]
      simp only [declarationFault?, ih]

theorem filterMap_token?_filter (cs : List Construct) :
    (cs.filter (!·.isText)).filterMap (·.token?) = cs.filterMap (·.token?) := by
  rw [List.filterMap_filter]
  refine List.filterMap_congr fun c _ => ?_
  cases h : c.isText <;> simp [c.token?_of_isText, h]

namespace Recasting

/-! ### Renumbering -/

/-- **A recasting only renumbers** if it keeps expressions, locations, and the ordinals of
fragments. -/
structure Renumbers (r : Recasting) : Prop where
  ordinal : ∀ n, r.ordinal n = n
  expr : ∀ e, r.expr e = e
  location : ∀ l, r.location l = l

variable {r : Recasting} {os os' : List Outline}

namespace Renumbers

variable (h : r.Renumbers)

include h

theorem expr_eq : r.expr = fun e => e :=
  funext h.expr

theorem location_eq : r.location = fun l => l :=
  funext h.location

theorem construct_eq (c : Construct) : r.construct c = c := by
  rw [Recasting.construct, h.expr_eq, h.location_eq]
  exact c.map_id

theorem enumerations_axis (a : Axis) : (r.axis a).enumerations = a.enumerations := by
  rw [Axis.enumerations, Axis.enumerations, Recasting.axis, List.filterMap_map]
  simp only [Function.comp_def, placed, h.construct_eq]

theorem mergeFault?_axis (a : Axis) : (r.axis a).mergeFault? = a.mergeFault? := by
  rw [Axis.mergeFault?, Axis.mergeFault?, h.enumerations_axis]

theorem call?_axis (subject : Option Expr) (a : Axis) :
    (r.axis a).call? subject = a.call? subject := by
  have hcall := r.call?_axis subject a
  have hmap : (Call.map fun e => e) = fun call => call := funext Call.map_id
  rwa [h.expr_eq, Option.map_id', hmap, Option.map_id'] at hcall

theorem hoistFault?_axis (subject : Option Expr) (root : Location) (a : Axis) (index : Nat) :
    (r.axis a).hoistFault? subject root index = a.hoistFault? subject root index := by
  have hcontributors : (r.axis a).contributors = a.contributors.map r.placed := rfl
  rw [Axis.hoistFault?, Axis.hoistFault?, h.call?_axis, hcontributors]
  cases a.contributors <;> simp [placed, h.construct_eq]

theorem hoistFault?_map (subject : Option Expr) (root : Location) (axes : List Axis) :
    hoistFault? subject root (axes.map r.axis) = hoistFault? subject root axes := by
  rw [hoistFault?, hoistFault?, List.zipIdx_map, List.findSome?_map]
  simp only [Function.comp_def, Prod.map, h.hoistFault?_axis, id_eq]

end Renumbers

namespace Retells

/-- **But for literal texts, the constructs stay** and their order. -/
theorem filter_isText (h : r.Retells os os') (hr : r.Renumbers) :
    ((constructsAll os').map (·.construct)).filter (!·.isText) =
      ((constructsAll os).map (·.construct)).filter (!·.isText) := by
  induction h with
  | nil => rfl
  | construct id c _ ih =>
    rw [constructsAll, constructsAll, List.map_append, List.map_append, List.filter_append,
      List.filter_append, ih, Outline.constructs, Outline.constructs, hr.construct_eq]
    rfl
  | fragment id ordinal location _ _ ihchildren ih =>
    rw [constructsAll, constructsAll, List.map_append, List.map_append, List.filter_append,
      List.filter_append, ih, Outline.constructs, Outline.constructs, ihchildren]
  | split id first second htext _ ih => exact ih

theorem levelCollision?_eq (h : r.Retells os os') (hr : r.Renumbers)
    {values values' : Assignment} (hvalues : ∀ id, values' (r.id id) = values id)
    (taken : List TokenName) :
    levelCollision? values' taken os' = levelCollision? values taken os := by
  induction h generalizing taken with
  | nil => rfl
  | construct id c _ ih => exact ih taken
  | fragment id ordinal location hchildren _ _ ih =>
    rw [levelCollision?, levelCollision?, hchildren.implicitToken_eq hvalues, hr.location, ih]
  | split id first second htext _ ih => exact ih taken

end Retells

theorem collisionFault?_eq {levels levels' : List (List Outline)}
    (h : List.Forall₂ r.Retells levels levels') (hr : r.Renumbers)
    {values values' : Assignment} (hvalues : ∀ id, values' (r.id id) = values id)
    (declared : List TokenName) :
    collisionFault? values' declared levels' = collisionFault? values declared levels := by
  rw [collisionFault?, collisionFault?]
  induction h with
  | nil => rfl
  | cons hlevel _ ih =>
    rw [List.findSome?_cons, List.findSome?_cons, hlevel.levelCollision?_eq hr hvalues, ih]

/-! ### Renumbered phrases -/

namespace RetellsPhrase

variable {p p' : Phrase} (h : r.RetellsPhrase p p') (hr : r.Renumbers)

include h hr

/-- **A phrase that is only renumbered has the same fault**, if it has one. -/
theorem fault?_eq (rules : Option PluralRules) : fault? rules p' = fault? rules p := by
  have hsubject : p'.options.subject = p.options.subject := by
    rw [h.options, hr.expr_eq, Option.map_id']
  have hlocation : p'.location = p.location := by rw [h.location, hr.location]
  have hmerged : ((p.axes rules).map r.axis).findSome? Axis.mergeFault? =
      (p.axes rules).findSome? Axis.mergeFault? := by
    rw [List.findSome?_map]
    simp only [Function.comp_def, hr.mergeFault?_axis]
  -- what is declared and referred to is the same once literal texts are passed by
  have hconstructs := h.outline.filter_isText hr
  have hdeclaration : declarationFault? [] ((constructsAll p'.outline).map (·.construct)) =
      declarationFault? [] ((constructsAll p.outline).map (·.construct)) := by
    rw [← declarationFault?_filter, hconstructs, declarationFault?_filter]
  have hdeclared : declaredTokens (constructsAll p'.outline) =
      declaredTokens (constructsAll p.outline) := by
    have htokens := congrArg (List.filterMap (·.token?)) hconstructs
    rwa [filterMap_token?_filter, filterMap_token?_filter, List.filterMap_map,
      List.filterMap_map] at htokens
  have hcollision : ∀ s : Signature,
      collisionFault? (s.valueFor ((p.axes rules).map r.axis))
          (declaredTokens (constructsAll p.outline)) p'.levels =
        collisionFault? (s.valueFor (p.axes rules)) (declaredTokens (constructsAll p.outline))
          p.levels :=
    fun s => collisionFault?_eq (.cons h.outline h.outline.forall₂_levelsAll) hr
      (fun id => r.valueFor_map _ s id) _
  simp only [fault?, h.axes_eq, hmerged, hdeclaration, h.outline.hasFragment_eq, hsubject,
    hlocation, hr.hoistFault?_map, r.signatures_map, hdeclared, hcollision]

/-- **A phrase that is only renumbered is compiled to the same**, or rejected with the same
error. -/
theorem compile_eq (config : Config) : compile config p' = compile config p := by
  have hassemble : assemble config p' = assemble config p := by
    rw [h.assemble_eq hr.ordinal, hr.expr_eq, hr.location_eq]
    exact CompiledPhrase.map_id _
  rw [compile, compile, h.fault?_eq hr, hassemble]

end RetellsPhrase

end Recasting

/-! ### Cutting a text -/

/-- A phrase with a text cut in two retells the phrase. -/
theorem retellsPhrase_cut (p : Phrase) (place : Place) {t u v : LiteralText}
    (h : t.value = u.value ++ v.value) :
    (Recasting.leavingRoom place.id 1 place.ordinal 0).RetellsPhrase
      (p.filled place [.construct (.text t)])
      (p.filled place [.construct (.text u), .construct (.text v)]) where
  outline := by
    obtain ⟨before, after, after', -, -, hbefore, hafter, hamends⟩ :=
      p.exists_amends_filled place [.construct (.text t)]
        [.construct (.text u), .construct (.text v)] rfl rfl
    exact hamends.retells (hbefore.append (.split _ _ _ h hafter))
  description := rfl
  options := congrArg (fun subject => { p.options with subject }) Option.map_id'.symm
  location := rfl

/-- **Compilation does not depend on how literal text is cut up**: wherever a text stands, the
phrase with the text cut in two is compiled to the same, or rejected with the same error. -/
theorem compile_cut_text (config : Config) (p : Phrase) (place : Place) (a b : String)
    (location first second : Location) :
    compile config (p.filled place
        [.construct (.text ⟨a, first⟩), .construct (.text ⟨b, second⟩)]) =
      compile config (p.filled place [.construct (.text ⟨a ++ b, location⟩)]) :=
  (retellsPhrase_cut p place rfl).compile_eq
    ⟨leaveRoom_zero place.ordinal, fun _ => rfl, fun _ => rfl⟩ config

end Phrasebook
