import Mathlib.Logic.Function.Basic
import Phrasebook.Rendering

/-!
# Recasting a phrase

What a phrase reads as is decided by the wordings of its constructs and by which of them vary
together. It does not depend on how nodes are numbered, as long as no two get one number, nor
on what runtime expressions are made of, nor on where anything stands in a source. A
**recasting** (`Phrasebook.Recasting`) changes these three things and no others.

The axes of recast constructs are their axes, recast
(`Phrasebook.Recasting.foldl_addAxis`): axes are merged by owner, an owner is a number or a
list of keys, and different numbers stay different. So a recast construct stands on the same
axis as before (`Phrasebook.Recasting.drivenAxis?_map`), the signatures are the same
(`Phrasebook.Recasting.signatures_map`), and each gives the construct the same value
(`Phrasebook.Recasting.valueFor_map`).
-/

namespace Phrasebook

/-! ### Other expressions and locations -/

section Map

variable (e : Expr → Expr) (l : Location → Location)

/-- A construct with its expressions and its location changed. -/
def Construct.map : Construct → Construct
  | .text t => .text { t with location := l t.location }
  | .param p =>
    .param { p with value := e p.value, gender := p.gender.map e, location := l p.location }
  | .enumeration x => .enumeration { x with value := e x.value, location := l x.location }
  | .plural p =>
    .plural { p with count := e p.count, value := p.value.map e, location := l p.location }
  | .name n => .name { n with value := e n.value, gender := e n.gender, location := l n.location }
  | .pronoun p => .pronoun { p with gender := e p.gender, location := l p.location }
  | .sameParam s => .sameParam { s with location := l s.location }

mutual

/-- A node with all expressions and locations in it changed. -/
def Node.map : Node → Node
  | .construct c => .construct (c.map e l)
  | .fragment children location => .fragment (mapAll children) (l location)

/-- Some nodes with all expressions and locations in them changed. -/
def mapAll : List Node → List Node
  | [] => []
  | n :: ns => n.map :: mapAll ns

end

/-- **A phrase with its expressions and locations changed**, all else being as it was. -/
def Phrase.map (p : Phrase) : Phrase :=
  { p with
    options := { p.options with subject := p.options.subject.map e }
    children := mapAll e l p.children
    location := l p.location }

end Map

theorem Construct.map_id (c : Construct) : c.map id id = c := by
  cases c <;> simp [Construct.map]

mutual

theorem Node.map_id : ∀ n : Node, n.map id id = n
  | .construct c => congrArg Node.construct c.map_id
  | .fragment children location => by rw [Node.map, mapAll_id children, id]

theorem mapAll_id : ∀ ns : List Node, mapAll id id ns = ns
  | [] => rfl
  | n :: ns => by rw [mapAll, Node.map_id n, mapAll_id ns]

end

/-! ### Recastings -/

/-- New numbers for the nodes of a phrase, new ordinals for its fragments, and new
expressions and locations. No two nodes get one number. -/
structure Recasting where
  id : Nat → Nat
  ordinal : Nat → Nat
  expr : Expr → Expr
  location : Location → Location
  id_injective : Function.Injective id

namespace Recasting

variable (r : Recasting)

/-- A construct, recast. -/
def construct (c : Construct) : Construct :=
  c.map r.expr r.location

/-- A construct and its number, recast. -/
def placed (q : Placed) : Placed :=
  ⟨r.id q.id, r.construct q.construct⟩

/-- The owner of an axis, recast. -/
def owner : AxisOwner → AxisOwner
  | .node id => .node (r.id id)
  | .subject => .subject
  | .enumKeys keys => .enumKeys keys

/-- An axis, recast: another owner and other contributors, but the same candidates and the
same descriptor. -/
def axis (a : Axis) : Axis :=
  { a with owner := r.owner a.owner, contributors := a.contributors.map r.placed }

/-- A mode of rendering, recast. -/
def mode : Mode → Mode
  | .leaf => .leaf
  | .tokenName => .tokenName
  | .description target => .description (r.id target)

/-! ### Axes -/

variable {rules : Option PluralRules}

theorem owner_inj {o o' : AxisOwner} : r.owner o = r.owner o' ↔ o = o' := by
  cases o <;> cases o' <;> simp [owner, r.id_injective.eq_iff]

/-- **A recast construct contributes its axis, recast.** -/
theorem axis?_placed (q : Placed) : (r.placed q).axis? rules = (q.axis? rules).map r.axis := by
  obtain ⟨id, c⟩ := q
  cases c with
  | param p =>
    rcases hn : p.number with _ | _ <;> rcases hg : p.gender with _ | g <;>
      simp [Placed.axis?, placed, construct, Construct.map, Placed.ownAxis, axis, owner, hn, hg]
  | _ => rfl

theorem addAxis_map (axes : List Axis) (a : Axis) :
    addAxis (axes.map r.axis) (r.axis a) = (addAxis axes a).map r.axis := by
  induction axes with
  | nil => rfl
  | cons b axes ih =>
    have howner : (r.axis b).owner = (r.axis a).owner ↔ b.owner = a.owner := r.owner_inj
    rw [List.map_cons, addAxis, addAxis]
    by_cases h : b.owner = a.owner
    · rw [if_pos (howner.mpr h), if_pos h, List.map_cons]
      simp [axis]
    · rw [if_neg fun he => h (howner.mp he), if_neg h, List.map_cons, ih]

/-- **Collecting recast axes collects the axes, recast.** -/
theorem foldl_addAxis (own axes : List Axis) :
    (own.map r.axis).foldl addAxis (axes.map r.axis) =
      (own.foldl addAxis axes).map r.axis := by
  rw [List.foldl_map]
  exact List.foldl_hom (List.map r.axis) fun axes a => r.addAxis_map axes a

theorem isDrivenBy_axis (a : Axis) (id : Nat) :
    (r.axis a).isDrivenBy (r.id id) = a.isDrivenBy id := by
  simp [Axis.isDrivenBy, axis, placed, Function.comp_def, r.id_injective.eq_iff]

/-- **A node stands on the same axis as before.** -/
theorem drivenAxis?_map (axes : List Axis) (id : Nat) :
    drivenAxis? (axes.map r.axis) (r.id id) = drivenAxis? axes id := by
  simp [drivenAxis?, List.findIdx?_map, Function.comp_def, r.isDrivenBy_axis]

theorem leadsAxis_map (axes : List Axis) (id : Nat) :
    leadsAxis (axes.map r.axis) (r.id id) = leadsAxis axes id := by
  simp [leadsAxis, axis, placed, Function.comp_def, Option.map_eq_some_iff,
    r.id_injective.eq_iff]

/-! ### Signatures -/

/-- **Recast axes have the same signatures.** -/
theorem signatures_map (axes : List Axis) : signatures (axes.map r.axis) = signatures axes := by
  induction axes with
  | nil => rfl
  | cons a axes ih =>
    rw [List.map_cons, signatures, signatures, ih]
    rfl

/-- **A signature gives a recast node the same value.** -/
theorem valueFor_map (axes : List Axis) (s : Signature) (id : Nat) :
    s.valueFor (axes.map r.axis) (r.id id) = s.valueFor axes id := by
  rw [Signature.valueFor, Signature.valueFor, r.drivenAxis?_map]

/-- What is said of recast axes is what was said of them. -/
theorem descriptors_map (axes : List Axis) :
    (axes.map r.axis).map (·.descriptor) = axes.map (·.descriptor) := by
  rw [List.map_map]
  rfl

/-! ### Rendering -/

theorem token_mode (mode : Mode) (t : TokenName) : (r.mode mode).token t = mode.token t := by
  cases mode <;> rfl

theorem showsToken_mode (mode : Mode) (id : Nat) :
    (r.mode mode).showsToken (r.id id) = mode.showsToken id := by
  cases mode <;> simp [Recasting.mode, Mode.showsToken, r.id_injective.eq_iff]

/-- **A recast construct reads the same**, if its axis takes the same value. -/
theorem render_construct (mode : Mode) (value : Option AxisValue) (c : Construct) :
    (r.construct c).render (r.mode mode) value = c.render mode value := by
  cases c with
  | text t => rfl
  | param p => exact r.token_mode mode p.name
  | enumeration x => rfl
  | plural p =>
    simp only [construct, Construct.map, Construct.render, Plural.render, r.token_mode]
    rfl
  | name n => exact r.token_mode mode n.name
  | pronoun p => rfl
  | sameParam s => exact r.token_mode mode s.name

end Recasting

end Phrasebook
