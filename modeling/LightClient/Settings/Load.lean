import LightClient.Settings.Environment
import LightClient.Settings.Fields
import LightClient.Toml.Document
import LightClient.Toml.Layers
/-!
# Loading and saving settings

Settings are loaded from three layers: defaults, a file and the environment.
-/
namespace LightClient

open Toml (Value)

/-- Where a file of settings is looked for. -/
inductive SettingsFile where
  /-- No file is asked for. -/
  | unnamed
  | missing
  | text (content : String)

def SettingsFile.layer? : SettingsFile → Option (List (String × Value))
  | .unnamed => some []
  | .missing => none
  | .text content => Toml.parse content

namespace Settings

def load (defaults : Settings) (file : SettingsFile) (vars : List (String × String)) :
    Except SettingsError Settings := do
  let some fileLayer := file.layer? | throw .load
  let layers := [defaults.layer, fileLayer, Environment.layer vars]
  let some s := ofValue? (layers.foldl Toml.addLayer (.table [])) | throw .load
  s.validate
  return s

def save (s : Settings) : Except SettingsError String :=
  match Toml.write s.sections with
  | some text => .ok text
  | none => .error .encode

end Settings
end LightClient
