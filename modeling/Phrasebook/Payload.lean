import Phrasebook.Axis
import Phrasebook.TextTable

/-!
# Payloads

What a phrase hands to translators: its text table, a descriptor for each axis,
and the project it belongs to. Written out it is a JSON object, and between two
sentinels it can be told from the code it is embedded in.
-/

namespace Phrasebook

/-- What a phrase, or a fragment of one, hands to translators. -/
structure Payload where
  table : TextTable
  /-- What is said of each axis, in order. -/
  descriptors : List (Option Descriptor)
  project : String

/-- A descriptor as a JSON value. That the count one has a branch is said only
where it has. -/
def Descriptor.toJson (d : Descriptor) : Json :=
  .object <|
    [("token", .string d.token.text), ("type", .number d.variation.code)] ++
      if d.singular then [("singular", .bool true)] else []

namespace Payload

/-- A payload as a JSON value. -/
def toJson (p : Payload) : Json :=
  .object
    [("jsfbt",
      .object
        [("t", p.table.toJson),
         ("m", .array (p.descriptors.map fun
           | some d => d.toJson
           | none => .null))]),
     ("project", .string p.project)]

/-- **A payload as JSON text.** -/
def text (p : Payload) : String :=
  p.toJson.text

/-- What marks both ends of a payload in code. -/
def sentinel : String := "__FBT__"

/-- A payload as it is embedded in code. -/
def sentinelText (p : Payload) : String :=
  sentinel ++ p.text ++ sentinel

end Payload

end Phrasebook
