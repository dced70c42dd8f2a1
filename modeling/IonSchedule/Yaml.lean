/-! # YAML values

Settings and gate tables may be written in YAML. A scalar keeps its text and whether it was quoted; what it
stands for is up to the reader of the document, so a word such as `true` is a truth value where one is wanted
and a text elsewhere.
-/
namespace IonSchedule

/-- A YAML value. A key may be any value, not only a scalar. -/
inductive Yaml where
  | scalar (quoted : Bool) (text : String)
  | sequence (items : List Yaml)
  | mapping (entries : List (Yaml × Yaml))

namespace Yaml

/-- What a key without a value has. -/
def blank : Yaml := .scalar false ""

instance : Inhabited Yaml := ⟨blank⟩

def text? : Yaml → Option String
  | .scalar _ text => some text
  | _ => none

/-- A truth value is a plain word. -/
def bool? : Yaml → Option Bool
  | .scalar false text =>
    if text = "true" || text = "True" || text = "TRUE" then some true
    else if text = "false" || text = "False" || text = "FALSE" then some false
    else none
  | _ => none

/-- Whether a value is left out: nothing, or a plain null. -/
def isNull : Yaml → Bool
  | .scalar false text => text = "" || text = "~" || text = "null" || text = "Null" || text = "NULL"
  | _ => false

/-- The items of a list; nothing stands for the empty one. -/
def items? : Yaml → Option (List Yaml)
  | .sequence items => some items
  | .scalar false text => if text = "" then some [] else none
  | _ => none

/-- The entries of a mapping whose keys are all scalars. -/
def named? (entries : List (Yaml × Yaml)) : Option (List (String × Yaml)) :=
  entries.mapM fun (key, value) => key.text?.map fun name => (name, value)

/-- The entries of a mapping whose keys are scalars and in which none of the known keys is repeated; nothing
stands for the empty one. -/
def record? (known : List String) : Yaml → Option (List (String × Yaml))
  | .mapping entries =>
    (named? entries).bind fun fields =>
      if known.all fun key => fields.countP (·.1 = key) ≤ 1 then some fields else none
  | .scalar false text => if text = "" then some [] else none
  | _ => none

def field? (entries : List (String × Yaml)) (key : String) : Option Yaml :=
  (entries.find? (·.1 = key)).map Prod.snd

/-- The value of a key that may be missing. -/
def optional? {α : Type} (entries : List (String × Yaml)) (key : String) (default : α) (read : Yaml → Option α) :
    Option α :=
  match field? entries key with
  | none => some default
  | some value => read value

end Yaml

end IonSchedule
