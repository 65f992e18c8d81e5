import Foundry.FileTree
import Foundry.Settings
import Foundry.Text.Blank
import Foundry.Yaml.Document
import Foundry.Yaml.Plain

/-!
# Configuration files

A configuration file is a YAML mapping with at most five keys, one for each setting. It is read from
the text of its scalars, so that `1.0` is the version `1.0` and not a number. A plain null leaves a
setting open. A key that is unknown or given twice is refused, and so is a value that is a
collection.

`FileTree.configuration` finds the file: the one that is named, or else `facgen.yaml` in a
directory, if there is one.
-/

namespace Foundry

open Text Yaml

/-- A configuration file that cannot be used. -/
inductive ConfigurationError where
  | unreadable (path : Path) (fault : Fault)
  | malformed (path : Path)
  deriving DecidableEq

def ConfigurationError.message : ConfigurationError → String
  | unreadable path _ => "reading config file: " ++ path.text
  | malformed path => "parsing config file: " ++ path.text

/-- The settings that a configuration file may hold. -/
inductive SettingKey where
  | sourceRoot
  | buildRoot
  | moduleName
  | moduleVersion
  | format
  deriving DecidableEq

namespace SettingKey

/-- Every setting. -/
def all : List SettingKey := [sourceRoot, buildRoot, moduleName, moduleVersion, format]

/-- The key of a setting. -/
def name : SettingKey → String
  | sourceRoot => "source_dir"
  | buildRoot => "build_dir"
  | moduleName => "module_name"
  | moduleVersion => "module_version"
  | format => "output_format"

/-- The setting with a key. -/
def ofName? (name : List Char) : Option SettingKey :=
  all.find? fun k => k.name.toList == name

theorem ofName?_name (k : SettingKey) : ofName? k.name.toList = some k := by
  cases k <;> rfl

end SettingKey

/-- A value in a configuration file: its tag, its text, and whether it is plain. -/
structure SettingValue where
  tag : Option (List Char)
  text : List Char
  plain : Bool

namespace SettingValue

/-- The tag of YAML's own that asks for null. -/
def nullTag : List Char := "tag:yaml.org,2002:null".toList

/-- Whether the text is a way to say nothing. -/
def saysNothing (v : SettingValue) : Bool :=
  v.plain && (v.text.isEmpty || isNullWord v.text)

/-- Whether the value leaves its setting open; a tag for null on anything else is refused. -/
def isOpen? (v : SettingValue) : Option Bool :=
  match v.tag with
  | none => some v.saysNothing
  | some tag =>
    if v.plain && tag == nullTag then if isNullWord v.text then some true else none
    else some false

/-- The format that a value names: by its text, or by its tag if it has nothing else to say. -/
def format? (v : SettingValue) : Option Format :=
  match v.tag with
  | some ('!' :: name) => if v.saysNothing then Format.ofName? (String.ofList name) else none
  | _ => Format.ofName? (String.ofList v.text)

end SettingValue

namespace Settings

/-- The settings with one of them set to a value. -/
def set? (s : Settings) (key : SettingKey) (v : SettingValue) : Option Settings :=
  let text := String.ofList v.text
  match key with
  | .sourceRoot => some { s with sourceRoot := some ⟨text⟩ }
  | .buildRoot => some { s with buildRoot := some ⟨text⟩ }
  | .moduleName => some { s with moduleName := some text }
  | .moduleVersion => some { s with moduleVersion := some text }
  | .format => v.format?.map fun f => { s with format := some f }

/-- The node that a tree stands for. -/
def target? (d : Document) : Yaml.Tree Nat → Option (Yaml.Tree Nat)
  | .aliasOf n => d.targets.lookup n
  | t => some t

/-- Reads the entries of a configuration; `seen` are the settings that were met before. -/
def ofEntries? (d : Document) :
    List SettingKey → Settings → List (Yaml.Tree Nat × Yaml.Tree Nat) → Option Settings
  | _, s, [] => some s
  | seen, s, (k, v) :: entries => do
    let .scalar _ name _ ← target? d k | none
    let key ← SettingKey.ofName? name
    if seen.contains key then failure
    let .scalar properties text plain ← target? d v | none
    let value : SettingValue := ⟨properties.tag, text, plain⟩
    let s ← if ← value.isOpen? then some s else s.set? key value
    ofEntries? d (key :: seen) s entries

/-- Reads the root of a configuration; a plain scalar without text is an empty configuration. -/
def ofDocument? (d : Document) : Option Settings :=
  match d.root with
  | .map _ entries => ofEntries? d [] empty entries
  | .scalar _ [] true => some empty
  | _ => none

/-- Reads the text of a configuration file. -/
def ofText? (text : String) : Option Settings :=
  if (trim text.toList).isEmpty then some empty
  else do
    match ← Document.ofText? text with
    | some d => ofDocument? d
    | none => some empty

end Settings

namespace FileTree

/-- The name of a configuration file that is found without being named. -/
def configurationName : String := "facgen.yaml"

/-- The settings of a configuration file. -/
def readSettings (t : FileTree) (p : Path) : Except ConfigurationError Settings :=
  match t.read p with
  | .error fault => .error (.unreadable p fault)
  | .ok text =>
    match Settings.ofText? text with
    | some s => .ok s
    | none => .error (.malformed p)

/-- The settings of the file that is named, or of the one in a directory. -/
def configuration (t : FileTree) (named : Option Path) (directory : Path) :
    Except ConfigurationError Settings :=
  match named with
  | some p => t.readSettings p
  | none =>
    let p := directory.join ⟨configurationName⟩
    if t.isFile p then t.readSettings p else .ok .empty

end FileTree

end Foundry
