import ChartScript.Conversion
import ChartScript.Settings.Ini
/-!
Settings from configuration text. Every key may be left out, and a number that cannot be read counts
as left out; what is given is checked in a fixed order.
-/
namespace ChartScript

structure Settings where
  conversion : ConversionSettings := {}
  /-- The ending of the names of written files, without the dot. -/
  extension : String := "rs"

inductive SettingFault where
  | mechanicalThreshold
  | fallbackThreshold
  | nestingLimit
  | runtimePath (path : String)
  | emitPlots
  | extension
deriving DecidableEq, Repr

namespace SettingFault

def heading : SettingFault → String
  | mechanicalThreshold | fallbackThreshold | nestingLimit => "converter"
  | runtimePath _ | emitPlots => "generator"
  | extension => "output"

def key : SettingFault → String
  | mechanicalThreshold => "mechanical_threshold"
  | fallbackThreshold => "fallback_threshold"
  | nestingLimit => "max_nesting_depth"
  | runtimePath _ => "runtime_path"
  | emitPlots => "emit_plots"
  | extension => "extension"

def reason : SettingFault → String
  | mechanicalThreshold => "mechanical_threshold must be in (0, 1]"
  | fallbackThreshold => "fallback_threshold must be between mechanical_threshold and 1"
  | nestingLimit => "max_nesting_depth must be non-negative"
  | runtimePath path => s!"`{path}` is not a Rust path"
  | emitPlots => "emit_plots must be a boolean"
  | extension => "extension must be a non-empty alphanumeric suffix"

end SettingFault

inductive ConfigError where
  /-- A file cannot be read or is malformed. -/
  | unreadable (file reason : String)
  /-- A text that comes from no file is malformed. -/
  | malformed (fault : IniFault)
  | invalid (fault : SettingFault)
deriving DecidableEq, Repr

def ConfigError.message : ConfigError → String
  | unreadable file reason => s!"config parse error in {file}: couldn't read {file}: {reason}"
  | malformed fault => s!"config parse error in <string>: {fault.message}"
  | invalid fault =>
    "invalid config value [" ++ fault.heading ++ "] " ++ fault.key ++ ": " ++ fault.reason

namespace Settings

def thresholds (ini : Ini) : Except SettingFault Thresholds :=
  let defaults : Thresholds := {}
  let mechanical := (ini.float? "converter" "mechanical_threshold").getD defaults.mechanical
  let fallback := (ini.float? "converter" "fallback_threshold").getD defaults.fallback
  if !(0.0 < mechanical && mechanical ≤ 1.0) then .error .mechanicalThreshold
  else if !(mechanical ≤ fallback && fallback ≤ 1.0) then .error .fallbackThreshold
  else .ok { mechanical := mechanical, fallback := fallback }

def nestingLimit (ini : Ini) : Except SettingFault Nat :=
  match ini.int? "converter" "max_nesting_depth" with
  | none => .ok ({} : ConversionSettings).nestingLimit
  | some depth => if depth < 0 then .error .nestingLimit else .ok depth.toNat

def generator (ini : Ini) : Except SettingFault GeneratorOptions :=
  let defaults : GeneratorOptions := {}
  let path := ((ini.get? "generator" "runtime_path").map Text.trim).getD defaults.runtimePath
  if !Emitted.isPath path then .error (.runtimePath path)
  else match ini.get? "generator" "emit_plots" with
    | none => .ok { runtimePath := path }
    | some text =>
      match Ini.readBool? text with
      | some plots => .ok { runtimePath := path, emitPlots := plots }
      | none => .error .emitPlots

def isExtensionChar (c : Char) : Bool :=
  c.isAlpha || c.isDigit || c == '_'

def extensionOf (ini : Ini) : Except SettingFault String :=
  match ini.get? "output" "extension" with
  | none => .ok ({} : Settings).extension
  | some text =>
    let ending := (Text.trimChars text.toList).dropWhile (· == '.')
    if !ending.isEmpty && ending.all isExtensionChar then .ok (String.ofList ending)
    else .error .extension

def ofIni (ini : Ini) : Except SettingFault Settings := do
  let thresholds ← thresholds ini
  let limit ← nestingLimit ini
  let generator ← generator ini
  let ending ← extensionOf ini
  return {
    conversion := { thresholds := thresholds, nestingLimit := limit, generator := generator }
    extension := ending }

def read (malformed : IniFault → ConfigError) (text : List Char) : Except ConfigError Settings :=
  match Ini.read text with
  | .error fault => .error (malformed fault)
  | .ok ini => (ofIni ini).mapError .invalid

def ofText (text : List Char) : Except ConfigError Settings :=
  read .malformed text

def ofFile (file : String) (text : List Char) : Except ConfigError Settings :=
  read (fun fault => .unreadable file fault.message) text

end Settings

end ChartScript
