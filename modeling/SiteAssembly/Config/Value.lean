import SiteAssembly.Text.Basic

/-!
# Values of a raw configuration

A configuration is given as a value of a data format with nulls, flags,
numbers, texts, lists and objects; nothing about its shape is promised.
-/

namespace SiteAssembly.Config

/-- A value as it was given. A decimal is `mantissa` with the point before its last `places`
digits. -/
inductive Value
  | null
  | flag (b : Bool)
  | integer (n : Int)
  | decimal (mantissa : Int) (places : Nat)
  | text (t : Text)
  | list (items : List Value)
  | object (fields : List (Text × Value))
  deriving BEq, Repr, Inhabited

namespace Value

def kind : Value → Text
  | .null => "NoneType"
  | .flag _ => "bool"
  | .integer _ => "int"
  | .decimal _ _ => "float"
  | .text _ => "str"
  | .list _ => "list"
  | .object _ => "dict"

def isNull : Value → Bool
  | .null => true
  | _ => false

/-- The fields of an object with values taken from `overrides`: a field is replaced if the overrides
give it a value other than null; a field that the object does not have is not added
(`_merge_config`, `interface.cli.app:79-90`). -/
def override (fields overrides : List (Text × Value)) : List (Text × Value) :=
  fields.map fun (key, value) =>
    match overrides.lookup key with
    | none => (key, value)
    | some given => (key, if given.isNull then value else given)

end Value

end SiteAssembly.Config
