import PrivacyClaw.Core.Text
import PrivacyClaw.Core.Vault
import PrivacyClaw.Lib.Codec

/-!
# The Configuration

`src/config.rs`: the settings, and how they are patched while the proxy runs.

A patch is a tree of JSON values. The settings are written as such a tree, the
patch is merged into it, and the result is read as settings again; only then the
rule for the tiers is checked, and the settings are replaced. The paths that are
returned as changed come from the merge, which compares the trees and knows
nothing of the types.

The defaults of two settings are directories of the user, which are a parameter.
The texts of the reading errors are not modelled; that a tree is written never
fails.

## Main definitions

* `Config` and its sections: The settings, with their defaults.
* `F32.toValue`, `F32.ofValue`: A float in a tree, where it is a double.
* `Config.codec`: How the settings are written and read.
* `jsonDeepMerge`: The merge, and the paths that changed.
* `validatePiiTiers`: The rule for the tiers.
* `requiresRestart`: Whether an address changed.
* `ConfigManager.patch`: What a patch does.
-/

namespace PrivacyClaw

open JsonTree

/-- `dirs::config_dir()`, as far as the defaults go. -/
structure Dirs where
  defaultLogsDir : Str
  defaultModelsDir : Str

structure ProxyConfig where
  listen : Str
  dashboard : Str
  deriving DecidableEq

structure InterceptConfig where
  domains : List Str
  deriving DecidableEq

structure StorageConfig where
  logsDir : Str
  deriving DecidableEq

structure LoggingConfig where
  level : Str
  format : Str
  file : Option Str
  rotation : Str
  deriving DecidableEq

structure NetworkProxyConfig where
  listen : Str
  enabled : Bool
  deriving DecidableEq

structure PiiTiersConfig where
  regex : Bool
  ner : Bool
  slm : Bool
  deriving DecidableEq

structure PiiNerConfig where
  modelPath : Str
  confidenceThreshold : F32
  timeoutMs : UInt64
  deriving DecidableEq

structure PiiSlmConfig where
  endpoint : Str
  timeoutMs : UInt64
  confidenceThreshold : F32
  modelId : Option Str
  deriving DecidableEq

structure PiiConfig where
  mode : Str
  tiers : PiiTiersConfig
  ner : PiiNerConfig
  slm : PiiSlmConfig
  vaultTtlHours : UInt64
  locale : Str
  modelsDir : Str
  deriving DecidableEq

structure Config where
  proxy : ProxyConfig
  intercept : InterceptConfig
  storage : StorageConfig
  logging : LoggingConfig
  networkProxy : NetworkProxyConfig
  pii : PiiConfig
  deriving DecidableEq

def defaultLogFormat : Str := lit "text"

def defaultLogRotation : Str := lit "daily"

def ProxyConfig.default : ProxyConfig where
  listen := lit "127.0.0.1:16440"
  dashboard := lit "127.0.0.1:16443"

def InterceptConfig.default : InterceptConfig where
  domains := [lit "api.anthropic.com", lit "api.openai.com",
    lit "generativelanguage.googleapis.com", lit "api.mistral.ai", lit "api.groq.com"]

def StorageConfig.default (dirs : Dirs) : StorageConfig where
  logsDir := dirs.defaultLogsDir

def LoggingConfig.default : LoggingConfig where
  level := lit "info"
  format := defaultLogFormat
  file := none
  rotation := defaultLogRotation

def NetworkProxyConfig.default : NetworkProxyConfig where
  listen := lit "127.0.0.1:16441"
  enabled := false

def PiiTiersConfig.default : PiiTiersConfig where
  regex := true
  ner := false
  slm := false

/-- The threshold is `0.5`. -/
def PiiNerConfig.default (dirs : Dirs) : PiiNerConfig where
  modelPath := dirs.defaultModelsDir
  confidenceThreshold := ⟨0x3F000000⟩
  timeoutMs := 500

/-- The threshold is `0.7`. -/
def PiiSlmConfig.default : PiiSlmConfig where
  endpoint := lit "http://127.0.0.1:16442"
  timeoutMs := 5000
  confidenceThreshold := ⟨0x3F333333⟩
  modelId := none

def PiiConfig.default (dirs : Dirs) : PiiConfig where
  mode := lit "off"
  tiers := .default
  ner := .default dirs
  slm := .default
  vaultTtlHours := 24
  locale := lit "en-US"
  modelsDir := dirs.defaultModelsDir

def Config.default (dirs : Dirs) : Config where
  proxy := .default
  intercept := .default
  storage := .default dirs
  logging := .default
  networkProxy := .default
  pii := .default dirs

namespace F32

def negative (x : F32) : Bool := 2 ^ 31 ≤ x.bits.toNat

/-- The bits without the sign. -/
def magnitude (x : F32) : Nat := x.bits.toNat % 2 ^ 31

def ofParts (negative : Bool) (magnitude : Nat) : F32 :=
  ⟨UInt32.ofNat (magnitude + if negative then 2 ^ 31 else 0)⟩

/-- `n as f32` for each kind of number. -/
def ofNumber : Number → F32
  | .posInt n => ofParts false (Binary.singleOf (n.toNat * 2 ^ 64) 1011)
  | .negInt n => ofParts (n < 0) (Binary.singleOf (n.toInt.natAbs * 2 ^ 64) 1011)
  | .float x => ofParts x.negative (Binary.narrow x.magnitude)

/-- `Value::from`: the same number as a double, or null. -/
def toValue (x : F32) : Json Str :=
  if h : x.magnitude < 255 * 2 ^ 23 then
    .number (.float ⟨x.negative, Binary.widen x.magnitude, Binary.widen_lt h⟩)
  else .null

/-- Any number is read as a float. -/
def ofValue : Json Str → Option F32
  | .number n => some (ofNumber n)
  | _ => none

def codec : Codec Str F32 := .leaf toValue ofValue

end F32

def ProxyConfig.codec : Codec Str ProxyConfig :=
  .record (fun c => (c.listen, c.dashboard, ())) (fun r => ⟨r.1, r.2.1⟩)
    (.cons (lit "listen") .text none (.cons (lit "dashboard") .text none .nil))

def InterceptConfig.codec : Codec Str InterceptConfig :=
  .record (fun c => (c.domains, ())) (fun r => ⟨r.1⟩) (.cons (lit "domains") .texts none .nil)

def StorageConfig.codec : Codec Str StorageConfig :=
  .record (fun c => (c.logsDir, ())) (fun r => ⟨r.1⟩) (.cons (lit "logs_dir") .text none .nil)

def LoggingConfig.codec : Codec Str LoggingConfig :=
  .record (fun c => (c.level, c.format, c.file, c.rotation, ()))
    (fun r => ⟨r.1, r.2.1, r.2.2.1, r.2.2.2.1⟩)
    (.cons (lit "level") .text none
      (.cons (lit "format") .text (some defaultLogFormat)
        (.cons (lit "file") .optionalText (some none)
          (.cons (lit "rotation") .text (some defaultLogRotation) .nil))))

def NetworkProxyConfig.codec : Codec Str NetworkProxyConfig :=
  .record (fun c => (c.listen, c.enabled, ())) (fun r => ⟨r.1, r.2.1⟩)
    (.cons (lit "listen") .text none (.cons (lit "enabled") .flag none .nil))

def PiiTiersConfig.codec : Codec Str PiiTiersConfig :=
  .record (fun c => (c.regex, c.ner, c.slm, ())) (fun r => ⟨r.1, r.2.1, r.2.2.1⟩)
    (.cons (lit "regex") .flag none
      (.cons (lit "ner") .flag none (.cons (lit "slm") .flag none .nil)))

def PiiNerConfig.codec : Codec Str PiiNerConfig :=
  .record (fun c => (c.modelPath, c.confidenceThreshold, c.timeoutMs, ()))
    (fun r => ⟨r.1, r.2.1, r.2.2.1⟩)
    (.cons (lit "model_path") .text none
      (.cons (lit "confidence_threshold") F32.codec none
        (.cons (lit "timeout_ms") .count none .nil)))

def PiiSlmConfig.codec : Codec Str PiiSlmConfig :=
  .record (fun c => (c.endpoint, c.timeoutMs, c.confidenceThreshold, c.modelId, ()))
    (fun r => ⟨r.1, r.2.1, r.2.2.1, r.2.2.2.1⟩)
    (.cons (lit "endpoint") .text none
      (.cons (lit "timeout_ms") .count none
        (.cons (lit "confidence_threshold") F32.codec none
          (.cons (lit "model_id") .optionalText (some none) .nil))))

def PiiConfig.codec : Codec Str PiiConfig :=
  .record (fun c => (c.mode, c.tiers, c.ner, c.slm, c.vaultTtlHours, c.locale, c.modelsDir, ()))
    (fun r => ⟨r.1, r.2.1, r.2.2.1, r.2.2.2.1, r.2.2.2.2.1, r.2.2.2.2.2.1, r.2.2.2.2.2.2.1⟩)
    (.cons (lit "mode") .text none
      (.cons (lit "tiers") PiiTiersConfig.codec none
        (.cons (lit "ner") PiiNerConfig.codec none
          (.cons (lit "slm") PiiSlmConfig.codec none
            (.cons (lit "vault_ttl_hours") .count none
              (.cons (lit "locale") .text none
                (.cons (lit "models_dir") .text none .nil)))))))

/-- Every section has a default here, and almost no setting in a section. -/
def Config.codec (dirs : Dirs) : Codec Str Config :=
  .record (fun c => (c.proxy, c.intercept, c.storage, c.logging, c.networkProxy, c.pii, ()))
    (fun r => ⟨r.1, r.2.1, r.2.2.1, r.2.2.2.1, r.2.2.2.2.1, r.2.2.2.2.2.1⟩)
    (.cons (lit "proxy") ProxyConfig.codec (some .default)
      (.cons (lit "intercept") InterceptConfig.codec (some .default)
        (.cons (lit "storage") StorageConfig.codec (some (.default dirs))
          (.cons (lit "logging") LoggingConfig.codec (some .default)
            (.cons (lit "network_proxy") NetworkProxyConfig.codec (some .default)
              (.cons (lit "pii") PiiConfig.codec (some (.default dirs)) .nil))))))

/-- `child_path`. -/
def childPath (path key : Str) : Str := if path.isEmpty then key else path ++ lit "." ++ key

mutual

/-- `recurse`: the merged value, and the paths that changed so far. -/
def recurse : Json Str → Json Str → Str → List Str → Json Str × List Str
  | .object b, .object p, path, changed =>
    let r := recurseEntries b p path changed
    (.object r.1, r.2)
  | base, patch, path, changed =>
    if base.eq patch then (base, changed) else (patch, changed ++ [path])

/-- Its loop: a new key gets an entry with null first. -/
def recurseEntries : List (Str × Json Str) → List (Str × Json Str) → Str → List Str →
    List (Str × Json Str) × List Str
  | b, [], _, changed => (b, changed)
  | b, (key, val) :: p, path, changed =>
    let r := recurse (entry b key) val (childPath path key) changed
    recurseEntries (setField key r.1 b) p path r.2

end

/-- `json_deep_merge`. -/
def jsonDeepMerge (base patch : Json Str) : Json Str × List Str := recurse base patch [] []

inductive PatchError where
  | invalidConfig
  | tierRule (message : Str)
  deriving DecidableEq

/-- `validate_pii_tiers`. -/
def validatePiiTiers (tiers : PiiTiersConfig) : Except PatchError Unit :=
  if tiers.ner && !tiers.regex then
    .error (.tierRule
      (lit "pii.tiers.ner requires pii.tiers.regex = true (Tier 2 depends on Tier 1)"))
  else .ok ()

/-- `requires_restart`. -/
def requiresRestart (old new : Config) : Bool :=
  old.proxy.listen ≠ new.proxy.listen || old.proxy.dashboard ≠ new.proxy.dashboard ||
    old.networkProxy.listen ≠ new.networkProxy.listen

structure PatchResult where
  ok : Bool
  restartRequired : Bool
  changedKeys : List Str
  deriving DecidableEq

/-- The lock is held for the whole of a patch, so there is one configuration at a
    time. -/
structure ConfigManager where
  inner : Config
  deriving DecidableEq

namespace ConfigManager

def get (m : ConfigManager) : Config := m.inner

/-- `patch`: its result, and the manager afterwards. -/
def patch (dirs : Dirs) (m : ConfigManager) (p : Json Str) :
    Except PatchError PatchResult × ConfigManager :=
  let (currentJson, changedKeys) := jsonDeepMerge ((Config.codec dirs).enc m.inner) p
  match (Config.codec dirs).dec currentJson with
  | none => (.error .invalidConfig, m)
  | some newConfig =>
    match validatePiiTiers newConfig.pii.tiers with
    | .error e => (.error e, m)
    | .ok () => (.ok ⟨true, requiresRestart m.inner newConfig, changedKeys⟩, ⟨newConfig⟩)

end ConfigManager

end PrivacyClaw
