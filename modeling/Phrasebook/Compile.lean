import Phrasebook.Declaration
import Phrasebook.FileOptions
import Phrasebook.Hoisting

/-!
# Compiling a phrase

`Phrasebook.compile` turns a phrase into its payload and the arguments it needs
at run time, or rejects it. A phrase is rejected for the first fault
(`Phrasebook.fault?`) of, in this order:

* enumerations that share an axis but select by different values;
* tokens declared twice, or referred to before they are declared;
* in a phrase with fragments, an expression that cannot be evaluated ahead of
  it;
* implicit tokens that collide under some signature.

A phrase without a fault is compiled level by level. Every level has a text
table over all axes of the phrase, so that the path found for the phrase leads to
a leaf in each of its fragments.
-/

namespace Phrasebook

/-- What phrases are compiled with. -/
structure Config where
  /-- Gives plurals a branch for each category in place of one for any count. -/
  rules : Option PluralRules := none
  fileOptions : FileOptions := {}

/-- A compiled phrase. -/
structure CompiledPhrase where
  payload : Payload
  arguments : List Argument
  /-- What the temporaries among the arguments stand for. -/
  hoisted : List Hoisted
  doNotExtract : Bool
  author : Option String
  location : Location

/-- The fragments of a compiled phrase, in reading order. -/
def CompiledPhrase.fragments (c : CompiledPhrase) : List FragmentPhrase :=
  fragmentsIn c.arguments

/-! ### Faults -/

/-- The enumerations that vary along an axis. -/
def Axis.enumerations (a : Axis) : List Enumeration :=
  a.contributors.filterMap fun p =>
    match p.construct with
    | .enumeration e => some e
    | _ => none

/-- The first enumeration of an axis that selects by another value than the
first of all. -/
def Axis.mergeFault? (a : Axis) : Option CompileError :=
  match a.enumerations with
  | [] => none
  | first :: others =>
    (others.find? (·.value ≠ first.value)).map fun other =>
      .malformed (.differentValues first.value other.value) other.location

/-- The levels of a phrase: its own nodes, and what each fragment wraps. -/
def Phrase.levels (p : Phrase) : List (List Outline) :=
  p.outline :: levelsAll p.outline

/-- **Why a phrase is rejected**, if it is. -/
def fault? (rules : Option PluralRules) (p : Phrase) : Option CompileError :=
  let axes := p.axes rules
  let placed := constructsAll p.outline
  Option.or (axes.findSome? Axis.mergeFault?) <|
  Option.or (declarationFault? [] (placed.map (·.construct))) <|
  Option.or
    (if hasFragment p.outline then hoistFault? p.options.subject p.location axes else none) <|
  (signatures axes).findSome? fun s =>
    collisionFault? (s.valueFor axes) (declaredTokens placed) p.levels

/-! ### Levels -/

section Levels

variable (axes : List Axis) (project : String)

/-- **The payload of a level**: its text under every signature, with what
`describe` says of it. -/
def levelPayload (describe : Signature → String) (level : List Outline) : Payload where
  table := (signatures axes).foldl (fun t s =>
    t.insert s.path
      { description := describe s
        text := renderAll (s.valueFor axes) .leaf level
        tokenAliases := fragmentAliases (s.valueFor axes) level }) .empty
  descriptors := axes.map (·.descriptor)
  project := project

variable (root : List Outline)

/-- The description of a fragment: the whole phrase, with the fragment as its
token. -/
def fragmentDescription (id : Nat) (s : Signature) : String :=
  "In the phrase: \"" ++ renderAll (s.valueFor axes) (.description id) root ++ "\""

/-- The temporaries of a phrase as arguments. -/
def temporaries (count : Nat) : List Argument :=
  (List.range count).map .temporary

mutual

/-- What a node adds to the arguments of its level in a phrase with fragments: a
fragment itself, and the call of a construct that drives no axis. -/
def Outline.sharedArguments (shared : List Argument) : Outline → List Argument
  | .construct id c =>
    if (drivenAxis? axes id).isNone then (c.call?.map .call).toList else []
  | .fragment id ordinal _ children =>
    [.fragment (TokenName.aliasOf ordinal)
      (levelPayload axes project (fragmentDescription axes root id) children)
      (shared ++ sharedArgumentsAll shared children)]

/-- What the nodes of a level add to its arguments in a phrase with fragments. -/
def sharedArgumentsAll (shared : List Argument) : List Outline → List Argument
  | [] => []
  | o :: os => o.sharedArguments shared ++ sharedArgumentsAll shared os

end

/-- The call a construct makes in a phrase without fragments: of the constructs
that share an axis only the first makes one. -/
def Outline.inlineCall? : Outline → Option Call
  | .construct id c =>
    if (drivenAxis? axes id).isNone || leadsAxis axes id then c.call? else none
  | .fragment _ _ _ _ => none

/-- The arguments of a phrase without fragments. -/
def inlineArguments (subject : Option Expr) (level : List Outline) : List Argument :=
  (subject.toList.map Call.subject ++ level.filterMap (Outline.inlineCall? axes)).map .call

end Levels

/-! ### Phrases -/

/-- A phrase without faults, compiled. -/
def assemble (config : Config) (p : Phrase) : CompiledPhrase :=
  let axes := p.axes config.rules
  let project := (p.options.project.or config.fileOptions.project).getD ""
  let root := p.outline
  let ahead := if hasFragment root then hoisted p.options.subject axes else []
  let shared := temporaries ahead.length
  { payload := levelPayload axes project (fun _ => p.description) root
    arguments :=
      if hasFragment root then shared ++ sharedArgumentsAll axes project root shared root
      else inlineArguments axes p.options.subject root
    hoisted := ahead
    doNotExtract := p.options.doNotExtract
    author := p.options.author.or config.fileOptions.author
    location := p.location }

/-- **Compiles a phrase**, or says why it is rejected. -/
def compile (config : Config) (p : Phrase) : Except CompileError CompiledPhrase :=
  match fault? config.rules p with
  | some e => .error e
  | none => .ok (assemble config p)

end Phrasebook
