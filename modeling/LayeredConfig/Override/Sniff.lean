import LayeredConfig.Decimal.Numeral
import LayeredConfig.Json.Reader

/-!
# The value of a raw text

An override's value is written without quotes, so its kind is found out by
trying: a boolean, an integer, a finite float, a JSON array or object, and a
string where nothing else fits.
-/

namespace LayeredConfig.Override

/-- The JSON container that a text holds, if it starts like one. -/
def container? (raw : String) : Option Value :=
  match raw.toList with
  | '[' :: _ => Json.read? raw
  | '{' :: _ => Json.read? raw
  | _ => none

/-- The value of a raw text. -/
def sniff (raw : String) : Value :=
  if raw = "true" then .bool true
  else if raw = "false" then .bool false
  else
    match Decimal.integer? raw with
    | some i => .int i
    | none =>
      match (Decimal.float? raw).filter Float.isFinite with
      | some x => .float x
      | none => (container? raw).getD (.str raw)

end LayeredConfig.Override
