import IonSchedule.Encoding.Read
import IonSchedule.Yaml.Reader

/-! # Gate tables from text

A gate table is a list of gate definitions, written as JSON or as YAML. A later definition of the same name
takes the place of an earlier one.
-/
namespace IonSchedule

open Yaml

def ParameterKind.ofYaml? (y : Yaml) : Option ParameterKind := do
  let word ← y.text?
  if word = "qubit" then return .qubit
  else if word = "float" then return .float
  else if word = "int" then return .int
  else none

def Parameter.ofYaml? (y : Yaml) : Option Parameter := do
  let entries ← y.record? ["name", "kind"]
  let name ← (Yaml.field? entries "name").bind text?
  let kind ← (Yaml.field? entries "kind").bind ParameterKind.ofYaml?
  return ⟨name, kind⟩

def GateDefinition.ofYaml? (y : Yaml) : Option GateDefinition := do
  let entries ← y.record? ["name", "parameters"]
  let name ← (Yaml.field? entries "name").bind text?
  let parameters ← Yaml.optional? entries "parameters" [] fun y => y.items?.bind (·.mapM Parameter.ofYaml?)
  return ⟨name, parameters⟩

namespace GateTable

def ofYaml? (y : Yaml) : Option GateTable := (y.items?.bind (·.mapM GateDefinition.ofYaml?)).map Catalog.ofList

def parseJson? (text : String) : Option GateTable := (Json.parse? text).bind ofJson?

def parseYaml? (text : String) : Option GateTable := (Yaml.parse? text).bind ofYaml?

end GateTable

end IonSchedule
