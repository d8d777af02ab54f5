import DirectiveEngine.Config.Basic
import DirectiveEngine.Json.Read
import DirectiveEngine.Yaml.Read

/-!
# Reading settings

A settings document is a mapping from names to values, in YAML or in JSON.  Most settings have two names, with
underscores or with hyphens.  Unknown names are passed over, missing settings keep their defaults, and no
setting may be given twice.
-/

namespace DirectiveEngine

inductive Setting where
  | blacklistedCommands
  | hostCommandsEnabled
  | webhooksEnabled
  | delayUnit
  | hostCommandTimeout
  | webhookTimeout
  | dataDir
  | shell
  deriving DecidableEq

namespace Setting

def all : List Setting :=
  [blacklistedCommands, hostCommandsEnabled, webhooksEnabled, delayUnit, hostCommandTimeout, webhookTimeout,
    dataDir, shell]

def name : Setting → Text
  | blacklistedCommands => "blacklisted_commands"
  | hostCommandsEnabled => "host_commands_enabled"
  | webhooksEnabled => "webhooks_enabled"
  | delayUnit => "delay_unit_ms"
  | hostCommandTimeout => "host_command_timeout_ms"
  | webhookTimeout => "webhook_timeout_ms"
  | dataDir => "data_dir"
  | shell => "shell"

/-- The name with hyphens in the place of underscores. -/
def hyphenated (s : Setting) : Text :=
  s.name.map fun c => if c = '_' then '-' else c

def ofName? (t : Text) : Option Setting :=
  all.find? fun s => s.name == t || s.hyphenated == t

end Setting

/-- How the values of a kind of document are taken for values of a setting. -/
structure ValueReader (ν : Type) where
  text? : ν → Option Text
  texts? : ν → Option (List Text)
  bool? : ν → Option Bool
  nat? : ν → Option Nat

namespace Config

variable {ν : Type}

def set? (r : ValueReader ν) (c : Config) (s : Setting) (v : ν) : Option Config :=
  match s with
  | .blacklistedCommands => (r.texts? v).map fun x => { c with blacklistedCommands := x }
  | .hostCommandsEnabled => (r.bool? v).map fun x => { c with hostCommandsEnabled := x }
  | .webhooksEnabled => (r.bool? v).map fun x => { c with webhooksEnabled := x }
  | .delayUnit => (r.nat? v).map fun x => { c with delayUnit := x }
  | .hostCommandTimeout => (r.nat? v).map fun x => { c with hostCommandTimeout := x }
  | .webhookTimeout => (r.nat? v).map fun x => { c with webhookTimeout := x }
  | .dataDir => (r.text? v).map fun x => { c with dataDir := x }
  | .shell => (r.text? v).map fun x => { c with shell := x }

/-- The settings of a mapping, given those that were met before. -/
def ofFields? (r : ValueReader ν) (c : Config) (met : List Setting) : List (Text × ν) → Option Config
  | [] => some c
  | (name, v) :: fields =>
    match Setting.ofName? name with
    | none => ofFields? r c met fields
    | some s =>
      if s ∈ met then none
      else (set? r c s v).bind fun c => ofFields? r c (s :: met) fields

/-- The settings of a list, in the order of their declaration; the list may end early. -/
def ofItems? (r : ValueReader ν) (c : Config) : List Setting → List ν → Option Config
  | _, [] => some c
  | [], _ :: _ => none
  | s :: settings, v :: vs => (set? r c s v).bind fun c => ofItems? r c settings vs

/-! ### YAML -/

/-- Whole numbers of a setting are below `2 ^ 64`. -/
def maxNat : Nat := 0xFFFFFFFFFFFFFFFF

def yamlReader : ValueReader Yaml.Node where
  text? := Yaml.Node.text?
  texts? := Yaml.Node.texts?
  bool? := Yaml.Node.bool?
  nat? := Yaml.Node.nat? maxNat

def ofYaml? (t : Text) : Option Config := do
  let root ← Yaml.root? t
  ofFields? yamlReader {} [] (← root.fields?)

/-! ### JSON -/

def jsonReader : ValueReader JsonValue where
  text? v := match v with | .string t => some t | _ => none
  texts? v := match v with
    | .array items => items.mapM fun v => match v with | .string t => some t | _ => none
    | _ => none
  bool? v := match v with | .bool b => some b | _ => none
  nat? v := match v with | .int n => if 0 ≤ n ∧ n ≤ maxNat then some n.toNat else none | _ => none

def ofJsonValue? : JsonValue → Option Config
  | .object members => ofFields? jsonReader {} [] members
  | .array items => ofItems? jsonReader {} Setting.all items
  | _ => none

def ofJson? (t : Text) : Option Config :=
  (JsonValue.read? t).bind ofJsonValue?

end Config

/-! ### Files -/

/-- The formats of a settings file. -/
inductive ConfigFormat where
  | yaml
  | json
  deriving DecidableEq

namespace ConfigFormat

/-- What follows the last point of a file name, if anything stands before that point. -/
def extension? (path : Text) : Option Text :=
  let name := (path.splitOn '/').getLastD []
  match Text.splitLast? '.' name with
  | some (_ :: _, ext) => some ext
  | _ => none

/-- A file is JSON if its name says so, in any letter case. -/
def ofPath (path : Text) : ConfigFormat :=
  match extension? path with
  | some ext => if Text.sameAscii ext "json" then json else yaml
  | none => yaml

def read? : ConfigFormat → Text → Option Config
  | yaml => Config.ofYaml?
  | json => Config.ofJson?

end ConfigFormat
end DirectiveEngine
