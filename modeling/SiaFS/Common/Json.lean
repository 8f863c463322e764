/-
The part of cJSON the program reads and builds documents with.

`Body` is the body of a reply together with the document `cJSON_Parse` makes of
it, if it accepts the text.
-/
import SiaFS.Common.Text

namespace SiaFS

inductive Json
  | null
  | bool (b : Bool)
  | num (n : Int)
  | str (s : CStr)
  | arr (items : List Json)
  | obj (fields : List (CStr × Json))

namespace Json

/-- The first member of an object with that name.  An array has unnamed
children, at the first of which the search of cJSON stops. -/
def cJSON_GetObjectItemCaseSensitive : Json → CStr → Option Json
  | .obj fields, name => fields.lookup name
  | _, _ => none

/-- What `cJSON_ArrayForEach` visits. -/
def children : Json → List Json
  | .arr items => items
  | .obj fields => fields.map Prod.snd
  | _ => []

def cJSON_IsObject : Json → Bool
  | .obj _ => true
  | _ => false

/-- The `valuestring` field, a null pointer unless the item is a string. -/
def valuestring : Json → Option CStr
  | .str s => some s
  | _ => none

/-- The `valueint` field: a number saturated to the range of `int`, `1` for
`true`, and zero for every other item. -/
def valueint : Json → Int
  | .num n => max (-2 ^ 31) (min n (2 ^ 31 - 1))
  | .bool true => 1
  | _ => 0

/-- The number `cJSON_IsNumber` lets through. -/
def number? : Json → Option Int
  | .num n => some (valueint (.num n))
  | _ => none

end Json

structure Body where
  bytes : Bytes
  document : Option Json

/-- `cJSON_Parse`, which returns `NULL` for a null pointer as well. -/
def cJSON_Parse (payload : Option Body) : Option Json := payload.bind Body.document

@[simp] theorem cJSON_Parse_some (body : Body) : cJSON_Parse (some body) = body.document := rfl

@[simp] theorem cJSON_Parse_none : cJSON_Parse none = none := rfl

end SiaFS
