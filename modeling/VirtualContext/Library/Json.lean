import Mathlib.Data.Rat.Init

/-!
# Decoded JSON

The values that `json.loads` returns, and the questions Python asks of them.
-/

namespace VirtualContext.Library

inductive Json where
  | null
  | bool (value : Bool)
  | int (value : Int)
  | float (value : ℚ)
  | str (value : String)
  | arr (elements : List Json)
  | obj (entries : List (String × Json))

namespace Json

/-- `data.get(key)` of a `dict`. -/
def get (entries : List (String × Json)) (key : String) : Option Json :=
  (entries.find? (·.1 = key)).map (·.2)

/-- The value of an `isinstance(value, int)`; `True` and `False` are numbers. -/
def asInt : Json → Option Int
  | .int value => some value
  | .bool value => some (if value then 1 else 0)
  | _ => none

/-- The element that a value names by its index, if it names one. -/
def index {α : Type} (elements : List α) (value : Json) : Option α :=
  match value.asInt with
  | some (.ofNat i) => elements[i]?
  | _ => none

/-- `data.get(key, default)` of a `dict` -/
def getOr (entries : List (String × Json)) (key : String) (default : Json) : Json :=
  (get entries key).getD default

/-- `value.get(key, default)`, which only a `dict` has. -/
def getDefault (value : Json) (key : String) (default : Json) : Option Json :=
  match value with
  | .obj entries => some (getOr entries key default)
  | _ => none

/-- `value[key]` of a `dict` -/
def subscript (value : Json) (key : String) : Option Json :=
  match value with
  | .obj entries => get entries key
  | _ => none

/-- `value == s` for a string `s` -/
def isStr (value : Json) (s : String) : Bool :=
  match value with
  | .str t => t == s
  | _ => false

/-- `"".join(parts)` -/
def joinText : List Json → Option String
  | [] => some ""
  | .str s :: parts => (joinText parts).map (s ++ ·)
  | _ :: _ => none

/-- The numbers that `+` adds. -/
def asFloat : Json → Option ℚ
  | .int value => some value
  | .bool value => some (if value then 1 else 0)
  | .float value => some value
  | _ => none

/-- `value + other` -/
def plus : Json → Json → Option Json
  | .str s, .str t => some (.str (s ++ t))
  | .arr xs, .arr ys => some (.arr (xs ++ ys))
  | a, b =>
      match a.asInt, b.asInt with
      | some m, some n => some (.int (m + n))
      | _, _ =>
          match a.asFloat, b.asFloat with
          | some p, some q => some (.float (p + q))
          | _, _ => none

/-- `bool(value)` -/
def truthy : Json → Bool
  | .null => false
  | .bool value => value
  | .int value => value != 0
  | .float value => value != 0
  | .str s => s != ""
  | .arr elements => !elements.isEmpty
  | .obj entries => !entries.isEmpty

theorem mem_of_index {α : Type} {elements : List α} {value : Json} {a : α}
    (h : value.index elements = some a) : a ∈ elements := by
  unfold index at h
  split at h
  · exact List.mem_of_getElem? h
  · cases h

end Json

end VirtualContext.Library
