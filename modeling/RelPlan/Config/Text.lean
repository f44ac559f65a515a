import RelPlan.Config.Basic
import RelPlan.Toml.Reader
import RelPlan.Toml.Writer

/-! # Configuration files

A configuration is a TOML document with the tables `log` and `rewrite`. What is absent has its
default. What is not known is passed over, as long as the numbers in it are in range. -/

namespace RelPlan

inductive ConfigError where
  /-- The text is no TOML document, or a setting has the wrong type. -/
  | unreadable
  | noIterations
  deriving DecidableEq, Repr

def ConfigError.message : ConfigError → String
  | unreadable => "TOML"
  | noIterations => "rewrite.max_iterations 必须大于 0"

namespace Toml

def string? : Toml → Option String
  | string s => some s
  | _ => none

def boolean? : Toml → Option Bool
  | boolean b => some b
  | _ => none

/-- A natural number of at most 64 bits. -/
def natural? : Toml → Option Nat
  | integer i => if 0 ≤ i ∧ i < UInt64.size then some i.toNat else none
  | _ => none

def strings? : Toml → Option (List String)
  | array items => items.mapM string?
  | _ => none

/-- The values of the named settings of a table. Other members are passed over, but the numbers in
them must be in range. -/
def namedSettings? (names : List String) (ms : Members) : Option (List (Option Toml)) :=
  if membersInRange (ms.filter fun (name, _) => name ∉ names) then some (names.map (find? ms))
  else none

/-- The values of the named settings: members of a table, or items of an array in order, of which
further ones do not count. A date or time is a table in its own way and has none of them. -/
def settings? (names : List String) : Toml → Option (List (Option Toml))
  | table _ ms => namedSettings? names ms
  | array items => some (names.zipIdx.map fun (_, i) => items[i]?)
  | tables elements => some (names.zipIdx.map fun (_, i) => elements[i]?.map (table .header))
  | datetime => some (names.map fun _ => none)
  | _ => none

/-- Reads a setting that may be absent. -/
def setting (read : Toml → Option α) (default : α) : Option Toml → Option α
  | none => some default
  | some t => read t

end Toml

open Toml

def LogSettings.ofToml? (t : Toml) : Option LogSettings := do
  match ← settings? ["level", "dir", "file", "max_file_size", "max_files"] t with
  | [level, dir, file, maxFileSize, maxFiles] =>
    let default : LogSettings := {}
    return {
      level := ← setting string? default.level level
      dir := ← setting string? default.dir dir
      file := ← setting string? default.file file
      maxFileSize := ← setting natural? default.maxFileSize maxFileSize
      maxFiles := ← setting natural? default.maxFiles maxFiles }
  | _ => none

def RewriteSettings.ofToml? (t : Toml) : Option RewriteSettings := do
  match ← settings? ["max_iterations", "fail_fast", "disabled_rules"] t with
  | [maxIterations, failFast, disabledRules] =>
    let default : RewriteSettings := {}
    return {
      maxIterations := ← setting natural? default.maxIterations maxIterations
      failFast := ← setting boolean? default.failFast failFast
      disabledRules := ← setting strings? default.disabledRules disabledRules }
  | _ => none

namespace Config

def ofToml? (root : Members) : Option Config := do
  match ← namedSettings? ["log", "rewrite"] root with
  | [log, rewrite] => return {
      log := ← setting LogSettings.ofToml? {} log
      rewrite := ← setting RewriteSettings.ofToml? {} rewrite }
  | _ => none

/-- Reads a configuration; at least one iteration must be allowed. -/
def load (text : String) : Except ConfigError Config :=
  match (Toml.read? text).bind ofToml? with
  | none => .error .unreadable
  | some c => if c.rewrite.maxIterations = 0 then .error .noIterations else .ok c

/-- The characters of a saved configuration. -/
def chars (c : Config) : List Char :=
  header "log"
    ++ line "level" (quoted c.log.level)
    ++ line "dir" (quoted c.log.dir)
    ++ line "file" (quoted c.log.file)
    ++ line "max_file_size" (Nat.toDigits 10 c.log.maxFileSize)
    ++ line "max_files" (Nat.toDigits 10 c.log.maxFiles)
    ++ '\n' :: header "rewrite"
    ++ line "max_iterations" (Nat.toDigits 10 c.rewrite.maxIterations)
    ++ line "fail_fast" (booleanText c.rewrite.failFast)
    ++ line "disabled_rules" (strings c.rewrite.disabledRules)

/-- The text of a saved configuration. -/
def save (c : Config) : String := .ofList c.chars

end Config
end RelPlan
