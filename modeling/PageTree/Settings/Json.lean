import PageTree.Json.Parser
import PageTree.Settings.Basic

/-!
# Settings as JSON

Settings are an object with one member for each field.  When they are read, fields that are
missing take their standard value, unknown members are passed over, and a field given twice
is refused; an array gives the fields in their order.
-/

namespace PageTree
namespace Settings

/-- The settings as a JSON text. -/
def toJson (s : Settings) : String :=
  String.ofList (Json.renderObject
    [("page_split_size", Text.decimal s.pageSplitSize),
     ("max_retries", Text.decimal s.maxRetries),
     ("failure_policy", Json.renderString s.failurePolicy.name),
     ("auto_commit_size", Text.decimal s.autoCommitSize),
     ("auto_commit_interval", Json.renderString s.autoCommitInterval.toText),
     ("max_zone_size", Text.decimal s.maxZoneSize),
     ("soften_interval", Json.renderString s.softenInterval.toText)])

/-- A count, a natural number of 64 bits. -/
def countOfJson? : Json → Option Nat
  | .integer n => if 0 ≤ n ∧ n < 0x10000000000000000 then some n.toNat else none
  | _ => none

/-- A policy: its name, or an object whose only key is its name. -/
def policyOfJson? : Json → Option ResetPolicy
  | .string s => do ResetPolicy.ofName? (← s.text?)
  | .object [(key, .null)] => do ResetPolicy.ofName? (← key.text?)
  | _ => none

/-- A duration, given by its text. -/
def durationOfJson? : Json → Option Duration
  | .string s => do Duration.parse? (← s.text?)
  | _ => none

/-- The names of the fields, in their order. -/
def fieldNames : List String :=
  ["page_split_size", "max_retries", "failure_policy", "auto_commit_size",
   "auto_commit_interval", "max_zone_size", "soften_interval"]

/-- Sets a field of the given name. -/
def setField? (s : Settings) (field : String) (item : Json) : Option Settings := do
  match field with
  | "page_split_size" => return { s with pageSplitSize := ← countOfJson? item }
  | "max_retries" => return { s with maxRetries := ← countOfJson? item }
  | "failure_policy" => return { s with failurePolicy := ← policyOfJson? item }
  | "auto_commit_size" => return { s with autoCommitSize := ← countOfJson? item }
  | "auto_commit_interval" => return { s with autoCommitInterval := ← durationOfJson? item }
  | "max_zone_size" => return { s with maxZoneSize := ← countOfJson? item }
  | "soften_interval" => return { s with softenInterval := ← durationOfJson? item }
  | _ => none

/-- Sets the fields that members name; `seen` are the names met before. -/
def setMembers? (s : Settings) (seen : List String) :
    List (JsonString × Json) → Option Settings
  | [] => some s
  | (key, item) :: members => do
    let field ← key.text?
    if field ∈ fieldNames then
      if field ∈ seen then none
      else setMembers? (← s.setField? field item) (field :: seen) members
    else if item.isStrict then setMembers? s seen members
    else none

/-- Sets the fields in their order. -/
def setInOrder? (s : Settings) : List String → List Json → Option Settings
  | _, [] => some s
  | [], _ :: _ => none
  | field :: fields, item :: items => do setInOrder? (← s.setField? field item) fields items

/-- The settings that a JSON text gives. -/
def ofJson? (text : String) : Option Settings := do
  match ← Json.parse? text with
  | .object members => standard.setMembers? [] members
  | .array items => standard.setInOrder? fieldNames items
  | _ => none

end Settings
end PageTree
