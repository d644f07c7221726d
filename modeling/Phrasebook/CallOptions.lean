import Phrasebook.CompileError
import Phrasebook.Text.EditDistance

/-!
# Options of a call

The options of a construct are given as an object literal. Reading one checks
that every key is known (`Phrasebook.CallOptions.parse`); what a key holds is
checked when it is asked for, against the kind of value it must have.
-/

namespace Phrasebook

/-- The options given to a call, each under a key the call knows. -/
structure CallOptions where
  entries : List (String × Expr) := []
  location : Location := {}

namespace CallOptions

variable (allowed : List String) (location : Location)

/-- One option, if its key is one of those allowed. -/
def entry (p : Property) : Except CompileError (String × Expr) :=
  match p.name? with
  | none => .error (.malformed .computedOptionKey location)
  | some key =>
    if key ∈ allowed then .ok (key, p.value)
    else .error (.unknownOption key allowed (closest key allowed) location)

/-- **The options in an argument.** No argument gives no options; an argument
must be an object literal whose keys are all allowed. -/
def parse : Option Expr → Except CompileError CallOptions
  | none => .ok { location }
  | some (.object properties) => do
    let entries ← properties.mapM (entry allowed location)
    return { entries, location }
  | some other => .error (.malformed (.optionsKind other.kindLabel) location)

variable (options : CallOptions) (key : String)

/-- The value of an option. Of two under one key the first counts. -/
def get? : Option Expr :=
  options.entries.lookup key

/-- The value of an option that must be a string literal. -/
def string? : Except CompileError (Option String) :=
  match options.get? key with
  | none => .ok none
  | some value =>
    match value.string? with
    | some text => .ok (some text)
    | none => .error (.malformed (.optionKind key value.kindLabel) options.location)

/-- The value of an option that must be a boolean, false when absent. -/
def flag : Except CompileError Bool :=
  match options.get? key with
  | none => .ok false
  | some value =>
    match value.bool? with
    | some b => .ok b
    | none => .error (.invalidOptionValue key value.print ["true", "false"] options.location)

/-- The value of an option that must say when a count is shown; never when
absent. -/
def showCount : Except CompileError ShowCount :=
  match options.get? key with
  | none => .ok .no
  | some value =>
    match value.string?.bind ShowCount.ofName? with
    | some s => .ok s
    | none =>
      .error (.invalidOptionValue key (value.string?.getD value.print)
        (ShowCount.all.map (·.name)) options.location)

end CallOptions

end Phrasebook
