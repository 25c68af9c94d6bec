import PrivacyClaw.Core.Text

/-!
# JSON Values

`serde_json::Value` as the proxy uses it: look a field up, read a string or
an array, put a value in its place. Parsing and printing are the `serde_json`
crate's and are parameters; a request body or an event is a byte string that
the parser accepts as one of these values or rejects.

An object is kept as the sorted field list of the crate's map.

## Main definitions

* `Value`: A JSON value.
* `SerdeJson`: The crate's parser and printer.
* `Value.get`, `Value.asStr`, `Value.asArray`: Reading.
* `Value.insertField`: Inserting into an object.
* `Value.pointer`, `Value.setPointer`: JSON pointers, by their tokens.
* `Value.compact`: The printed form.
* `SerdeJson.ofValues`: A parser for given values.
-/

namespace PrivacyClaw

/-- `serde_json::Value`. -/
inductive Value where
  | null
  | bool (b : Bool)
  | number (lexeme : Str)
  | string (s : Str)
  | array (items : List Value)
  | object (fields : List (Str × Value))

/-- The parser and printer of the `serde_json` crate. -/
structure SerdeJson where
  fromStr : Str → Option Value
  toStr : Value → Str

namespace Value

/-- The value of a key in a field list. -/
def lookupField (key : Str) : List (Str × Value) → Option Value
  | [] => none
  | (k, v) :: fields => if k = key then some v else lookupField key fields

/-- `Value::get` with a string index. -/
def get (v : Value) (key : Str) : Option Value :=
  match v with
  | .object fields => lookupField key fields
  | _ => none

/-- `Value::as_str`. -/
def asStr : Value → Option Str
  | .string s => some s
  | _ => none

/-- `Value::as_array`. -/
def asArray : Value → Option (List Value)
  | .array items => some items
  | _ => none

/-- `Map::insert`: the value of a present key is replaced, a new key goes
    before the first larger one. -/
def insertField (key : Str) (v : Value) : List (Str × Value) → List (Str × Value)
  | [] => [(key, v)]
  | (k, w) :: fields =>
    if k = key then (key, v) :: fields
    else if key < k then (key, v) :: (k, w) :: fields
    else (k, w) :: insertField key v fields

/-- The effect of assigning through `get_mut(key)`: nothing without the key. -/
def modifyField (key : Str) (f : Value → Value) : List (Str × Value) → List (Str × Value)
  | [] => []
  | (k, v) :: fields =>
    if k = key then (k, f v) :: fields else (k, v) :: modifyField key f fields

/-- A step of a path into a value: an object key or an array index. -/
inductive Step where
  | key (k : Str)
  | idx (i : Nat)

/-- `parse_index`: an array index in a JSON pointer has no sign and no leading
    zero. -/
def parseIndex (token : Str) : Option Nat :=
  if token.head? = some 43 ∨ (token.head? = some 48 ∧ token.length ≠ 1) then none
  else fromStrRadix 10 token

/-- `Value::pointer`, by the reference tokens of the pointer. -/
def pointer : List Str → Value → Option Value
  | [], v => some v
  | token :: path, .object fields => (lookupField token fields).bind (pointer path)
  | token :: path, .array items =>
    ((parseIndex token).bind fun i => items[i]?).bind (pointer path)
  | _ :: _, _ => none

/-- Assigning through `Value::pointer_mut`: nothing where the path ends
    early. -/
def setPointer (new : Value) : List Str → Value → Value
  | [], _ => new
  | token :: path, .object fields => .object (modifyField token (setPointer new path) fields)
  | token :: path, .array items =>
    match parseIndex token with
    | some i => .array (items.modify i (setPointer new path))
    | none => .array items
  | _ :: _, v => v

/-- A string as `serde_json` prints it. -/
def quoted (s : Str) : Str :=
  let hex (b : UInt8) : UInt8 := if b < 10 then 48 + b else 87 + b
  let escape (b : UInt8) : Str :=
    if b = 34 then lit "\\\""
    else if b = 92 then lit "\\\\"
    else if b = 8 then lit "\\b"
    else if b = 9 then lit "\\t"
    else if b = 10 then lit "\\n"
    else if b = 12 then lit "\\f"
    else if b = 13 then lit "\\r"
    else if b < 32 then lit "\\u00" ++ [hex (b >>> 4), hex (b &&& 15)]
    else [b]
  lit "\"" ++ s.flatMap escape ++ lit "\""

mutual

/-- The compact form of a value, `serde_json::to_string`. -/
def compact : Value → Str
  | .null => lit "null"
  | .bool b => if b then lit "true" else lit "false"
  | .number lexeme => lexeme
  | .string s => quoted s
  | .array items => lit "[" ++ compactItems items ++ lit "]"
  | .object fields => lit "\x7b" ++ compactFields fields ++ lit "\x7d"

def compactItems : List Value → Str
  | [] => []
  | [v] => compact v
  | v :: w :: vs => compact v ++ lit "," ++ compactItems (w :: vs)

def compactFields : List (Str × Value) → Str
  | [] => []
  | [(k, v)] => quoted k ++ lit ":" ++ compact v
  | (k, v) :: f :: fs => quoted k ++ lit ":" ++ compact v ++ lit "," ++ compactFields (f :: fs)

end

end Value

/-- A parser that knows the given values by their compact form only. -/
def SerdeJson.ofValues (values : List Value) : SerdeJson where
  fromStr s := values.find? fun v => v.compact == s
  toStr := Value.compact

end PrivacyClaw
