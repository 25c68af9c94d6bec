import PrivacyClaw.Core.Config

/-!
# What a Patch of the Configuration Reports

The merge of `jsonDeepMerge` compares trees, and the configuration is what is read
from the merged tree. The two agree on a patch that is written as it is read.

Three kinds of accepted patches are not. A threshold is kept in single precision,
so 0.7 is compared with the double next to it and reported as a change each time,
though it is the value that is there. A key that is no setting is passed over when
the tree is read, so whatever it has is reported and forgotten; only null is not
reported, since a missing key stands for it. And an array is read as a section by
position, but reported as a change of the whole section. That there are no others
is the theorem about shapes and patches, applied to the shape of the
configuration.

The paths are those of the tree that the configuration is written as, and it is at
these that it differs or does not.

## Main definitions

* `dotPath`: A path as it is reported.
* `view`: The configuration at a path.
* `PatchExact`: A report that is right, and none for the same patch again.

## Theorems

* `recurse_eq`: The merge of the source, in two parts.
* `F32.lawful_codec`, `Config.lawful_codec`: Reading and writing follow the shape.
* `F32.reads_iff`: The thresholds that are written as they are read.
* `patch_exact_iff`: Which patches are reported exactly.
* `patch_not_exact`: A threshold that is not.
-/

namespace PrivacyClaw

open JsonTree

/-- A path, joined the way it is reported. -/
def dotPath (q : List Str) : Str := q.foldl childPath []

/-- What the configuration has at a path of keys. -/
def view (dirs : Dirs) (c : Config) (q : List Str) : Option (Json Str) :=
  ((Config.codec dirs).enc c).atPath q

/-- The reported paths are those of leaves of the patch where the configuration
    differs, it is the same where the patch says nothing, and the same patch again
    reports nothing. -/
structure PatchExact (dirs : Dirs) (m m' : ConfigManager) (p : Json Str)
    (changedKeys : List Str) : Prop where
  reported : ∀ path, path ∈ changedKeys ↔
    ∃ q, p.LeafAt q ∧ dotPath q = path ∧ view dirs m.get q ≠ view dirs m'.get q
  kept : ∀ q, ¬ p.Mentions q → view dirs m'.get q = view dirs m.get q
  settled : ∃ res m'', m'.patch dirs p = (.ok res, m'') ∧ res.changedKeys = []

section Merge

/-- Where one of the two is no object the whole is compared. -/
theorem recurse_of_not {base p : Json Str} (h : base.isObject = false ∨ p.isObject = false)
    (path : Str) (changed : List Str) : recurse base p path changed =
      if base.eq p then (base, changed) else (p, changed ++ [path]) := by
  cases base with
  | object b =>
      cases p with
      | object m => exact Bool.noConfusion (h.elim id id : true = false)
      | _ => rfl
  | _ => cases p <;> rfl

mutual

/-- The merge and the report, apart. -/
theorem recurse_eq (base p : Json Str) (path : Str) (changed : List Str) :
    recurse base p path changed =
      (merge base p, changed ++ (report base p).map fun q => q.foldl childPath path) := by
  by_cases h : base.isObject = false ∨ p.isObject = false
  · rw [recurse_of_not h, merge_of_not h, report_of_not h]
    by_cases heq : base.eq p = true
    · rw [if_pos heq, if_pos heq, if_pos heq, List.map_nil, List.append_nil]
    · rw [if_neg heq, if_neg heq, if_neg heq]
      rfl
  · rcases p with _ | _ | _ | _ | _ | p
    case object =>
      rcases base with _ | _ | _ | _ | _ | b
      case object =>
        rw [recurse, recurseEntries_eq b p]
        rfl
      all_goals exact absurd (Or.inl rfl) h
    all_goals exact absurd (Or.inr rfl) h

theorem recurseEntries_eq (b p : List (Str × Json Str)) (path : Str) (changed : List Str) :
    recurseEntries b p path changed =
      (mergeFields b p, changed ++ (reportFields b p).map fun q => q.foldl childPath path) := by
  cases p with
  | nil => rw [recurseEntries, mergeFields, reportFields, List.map_nil, List.append_nil]
  | cons e p =>
      rcases e with ⟨key, val⟩
      rw [recurseEntries, recurse_eq _ val, mergeFields, reportFields, recurseEntries_eq _ p,
        List.map_append, List.map_map, List.append_assoc]
      dsimp only [Function.comp_def, List.foldl_cons]

end

theorem jsonDeepMerge_eq (base p : Json Str) :
    jsonDeepMerge base p = (merge base p, (report base p).map dotPath) :=
  recurse_eq base p [] []

end Merge

namespace F32

/-- The parts of a float, put together and taken apart. -/
theorem ofParts_parts (s : Bool) {m : Nat} (hm : m < 2 ^ 31) :
    (ofParts s m).negative = s ∧ (ofParts s m).magnitude = m := by
  have hbits : (ofParts s m).bits.toNat = m + if s then 2 ^ 31 else 0 := by
    rw [ofParts, UInt32.toNat_ofNat', Nat.mod_eq_of_lt]
    split <;> omega
  rw [negative, magnitude, hbits]
  cases s with
  | false =>
      rw [if_neg Bool.false_ne_true]
      exact ⟨decide_eq_false (by omega), by omega⟩
  | true =>
      rw [if_pos rfl]
      exact ⟨decide_eq_true (by omega), by omega⟩

theorem ofParts_self (x : F32) : ofParts x.negative x.magnitude = x := by
  have hlt : x.bits.toNat < 2 ^ 32 := x.bits.toNat_lt
  have hsum : (x.bits.toNat % 2 ^ 31 + if x.negative then 2 ^ 31 else 0) = x.bits.toNat := by
    rw [negative]
    by_cases h : 2 ^ 31 ≤ x.bits.toNat
    · rw [decide_eq_true h, if_pos rfl]
      omega
    · rw [decide_eq_false h, if_neg Bool.false_ne_true]
      omega
  rw [ofParts, magnitude, hsum, UInt32.ofNat_toNat]

/-- A finite float as a double. -/
theorem toValue_finite {x : F32} (h : x.magnitude < 255 * 2 ^ 23) : x.toValue =
    .number (.float ⟨x.negative, Binary.widen x.magnitude, Binary.widen_lt h⟩) := by
  rw [toValue, dif_pos h]

theorem toValue_infinite {x : F32} (h : ¬ x.magnitude < 255 * 2 ^ 23) : x.toValue = .null := by
  rw [toValue, dif_neg h]

/-- A finite float is read as it was written. -/
theorem ofValue_toValue {x : F32} (h : x.magnitude < 255 * 2 ^ 23) :
    ofValue x.toValue = some x := by
  rw [toValue_finite h, ofValue, ofNumber, Binary.narrow_widen h, ofParts_self]

/-- The zeros are written as they are read. -/
theorem toValue_zero {x : Binary.Double} (h : x.magnitude = 0) :
    (ofNumber (.float x)).toValue = .number (.float x) := by
  rcases x with ⟨s, m, hm⟩
  obtain rfl : m = 0 := h
  rcases ofParts_parts s (m := 0) (by decide) with ⟨hs, hmag⟩
  have hfin : (ofParts s 0).magnitude < 255 * 2 ^ 23 := by
    rw [hmag]
    decide
  rw [ofNumber, show Binary.narrow 0 = 0 from rfl, toValue_finite hfin]
  congr 3
  rw [hmag]
  rfl

/-- What is written of a number is equal to it only if it is the same. -/
theorem eq_of_toValue_eq {x : F32} {n : Number} (hx : x = ofNumber n)
    (h : x.toValue.eq (.number n) = true) : x.toValue = .number n := by
  by_cases hfin : x.magnitude < 255 * 2 ^ 23
  · rw [toValue_finite hfin] at h ⊢
    rcases n with n | n | y
    case float =>
      rcases Bool.or_eq_true_iff.mp h with h | h
      · rw [of_decide_eq_true h]
      · -- the zeros are equal, but each is written as itself
        rw [Bool.and_eq_true, beq_iff_eq, beq_iff_eq] at h
        rw [← toValue_finite hfin, hx]
        exact toValue_zero h.2
    all_goals exact absurd h Bool.false_ne_true
  · rw [toValue_infinite hfin] at h
    exact absurd h Bool.false_ne_true

/-- A number is written as a double. -/
theorem float_of_toValue {x : F32} {n : Number} (h : x.toValue = .number n) :
    ∃ y, n = .float y := by
  by_cases hfin : x.magnitude < 255 * 2 ^ 23
  · rw [toValue_finite hfin] at h
    exact ⟨_, (Json.number.inj h).symm⟩
  · rw [toValue_infinite hfin] at h
    exact absurd h (by simp only [reduceCtorEq, not_false_eq_true])

/-- A value that is equal to one that is written as it is read is so too. -/
theorem reads_of_eq {n : Number} {p : Json Str} (hn : (ofNumber n).toValue = .number n)
    (h : (Json.number n).eq p = true) : (ofValue p).map toValue = some p := by
  rcases float_of_toValue hn with ⟨x, rfl⟩
  rcases p with _ | _ | (k | k | y) | _ | _ | _
  case number.float =>
    rcases Bool.or_eq_true_iff.mp h with h | h
    · rw [← of_decide_eq_true h, ofValue, Option.map_some, hn]
    · rw [Bool.and_eq_true, beq_iff_eq, beq_iff_eq] at h
      rw [ofValue, Option.map_some, toValue_zero h.2]
  all_goals exact absurd h Bool.false_ne_true

theorem lawful_codec : F32.codec.Lawful := by
  refine ⟨fun v => rfl, fun x => ⟨?_, fun j h => ?_⟩,
    ⟨fun m => rfl, fun b p hb h => ?_, fun p j hp h => ?_⟩⟩
  · change x.toValue.isObject = false
    by_cases hfin : x.magnitude < 255 * 2 ^ 23
    · rw [toValue_finite hfin]
      rfl
    · rw [toValue_infinite hfin]
      rfl
  · change (ofValue x.toValue).map toValue = some j at h
    change j = x.toValue
    by_cases hfin : x.magnitude < 255 * 2 ^ 23
    · rw [ofValue_toValue hfin] at h
      exact (Option.some.inj h).symm
    · rw [toValue_infinite hfin] at h
      exact absurd h (by simp only [ofValue, Option.map_none, reduceCtorEq, not_false_eq_true])
  · change (ofValue b).map toValue = some b at hb
    cases b with
    | number n => exact reads_of_eq (Option.some.inj hb) h
    | _ =>
        exact absurd hb (by simp only [ofValue, Option.map_none, reduceCtorEq, not_false_eq_true])
  · change (ofValue p).map toValue = some j at hp
    cases p with
    | number n =>
        rw [← Option.some.inj hp] at h ⊢
        exact eq_of_toValue_eq rfl h
    | _ =>
        exact absurd hp (by simp only [ofValue, Option.map_none, reduceCtorEq, not_false_eq_true])

/-- The thresholds that are written as they are read: finite floats as doubles. -/
theorem reads_iff (p : Json Str) : Conforms F32.codec.shape p ↔
    ∃ x : F32, x.magnitude < 255 * 2 ^ 23 ∧ p = x.toValue := by
  change (ofValue p).map toValue = some p ↔ _
  constructor
  · intro h
    rcases Option.map_eq_some_iff.mp h with ⟨x, hx, rfl⟩
    refine ⟨x, ?_, rfl⟩
    by_contra hfin
    rw [toValue_infinite hfin] at hx
    exact absurd hx (by simp only [ofValue, reduceCtorEq, not_false_eq_true])
  · rintro ⟨x, hfin, rfl⟩
    rw [ofValue_toValue hfin, Option.map_some]

end F32

section Sections

theorem ProxyConfig.lawful_codec : ProxyConfig.codec.Lawful := by
  refine Codec.Lawful.record ?_ fun b => rfl
  exact .cons .text (.cons .text .nil (by decide)) (by decide)

theorem InterceptConfig.lawful_codec : InterceptConfig.codec.Lawful := by
  refine Codec.Lawful.record ?_ fun b => rfl
  exact .cons .texts .nil (by decide)

theorem StorageConfig.lawful_codec : StorageConfig.codec.Lawful := by
  refine Codec.Lawful.record ?_ fun b => rfl
  exact .cons .text .nil (by decide)

theorem LoggingConfig.lawful_codec : LoggingConfig.codec.Lawful := by
  refine Codec.Lawful.record ?_ fun b => rfl
  refine .cons .text ?_ (by decide)
  refine .cons .text ?_ (by decide)
  refine .cons .optionalText ?_ (by decide)
  exact .cons .text .nil (by decide)

theorem NetworkProxyConfig.lawful_codec : NetworkProxyConfig.codec.Lawful := by
  refine Codec.Lawful.record ?_ fun b => rfl
  exact .cons .text (.cons .flag .nil (by decide)) (by decide)

theorem PiiTiersConfig.lawful_codec : PiiTiersConfig.codec.Lawful := by
  refine Codec.Lawful.record ?_ fun b => rfl
  refine .cons .flag ?_ (by decide)
  exact .cons .flag (.cons .flag .nil (by decide)) (by decide)

theorem PiiNerConfig.lawful_codec : PiiNerConfig.codec.Lawful := by
  refine Codec.Lawful.record ?_ fun b => rfl
  refine .cons .text ?_ (by decide)
  refine .cons F32.lawful_codec ?_ (by decide)
  exact .cons .count .nil (by decide)

theorem PiiSlmConfig.lawful_codec : PiiSlmConfig.codec.Lawful := by
  refine Codec.Lawful.record ?_ fun b => rfl
  refine .cons .text ?_ (by decide)
  refine .cons .count ?_ (by decide)
  refine .cons F32.lawful_codec ?_ (by decide)
  exact .cons .optionalText .nil (by decide)

theorem PiiConfig.lawful_codec : PiiConfig.codec.Lawful := by
  refine Codec.Lawful.record ?_ fun b => rfl
  refine .cons .text ?_ (by decide)
  refine .cons PiiTiersConfig.lawful_codec ?_ (by decide)
  refine .cons PiiNerConfig.lawful_codec ?_ (by decide)
  refine .cons PiiSlmConfig.lawful_codec ?_ (by decide)
  refine .cons .count ?_ (by decide)
  exact .cons .text (.cons .text .nil (by decide)) (by decide)

theorem Config.lawful_codec (dirs : Dirs) : (Config.codec dirs).Lawful := by
  refine Codec.Lawful.record ?_ fun b => rfl
  -- the names do not depend on the directories
  have hnames : [lit "proxy", lit "intercept", lit "storage", lit "logging", lit "network_proxy",
      lit "pii"].Nodup := by decide
  rcases List.nodup_cons.mp hnames with ⟨hproxy, hnames⟩
  rcases List.nodup_cons.mp hnames with ⟨hintercept, hnames⟩
  rcases List.nodup_cons.mp hnames with ⟨hstorage, hnames⟩
  rcases List.nodup_cons.mp hnames with ⟨hlogging, hnames⟩
  refine .cons ProxyConfig.lawful_codec ?_ hproxy
  refine .cons InterceptConfig.lawful_codec ?_ hintercept
  refine .cons StorageConfig.lawful_codec ?_ hstorage
  refine .cons LoggingConfig.lawful_codec ?_ hlogging
  refine .cons NetworkProxyConfig.lawful_codec ?_ (List.nodup_cons.mp hnames).1
  exact .cons PiiConfig.lawful_codec .nil List.not_mem_nil

end Sections

section Patch

variable {dirs : Dirs} {m m' : ConfigManager} {p : Json Str} {res : PatchResult}

/-- Tiers that are written alike are the same. -/
theorem PiiTiersConfig.enc_inj {t t' : PiiTiersConfig}
    (h : PiiTiersConfig.codec.enc t = PiiTiersConfig.codec.enc t') : t = t' := by
  simp only [PiiTiersConfig.codec, Codec.record, Row.cons, Codec.flag, Codec.leaf,
    Json.object.injEq, List.cons.injEq, Prod.mk.injEq, Json.bool.injEq, true_and] at h
  rcases t with ⟨regex, ner, slm⟩
  rcases t' with ⟨regex', ner', slm'⟩
  rcases h with ⟨rfl, rfl, rfl, _⟩
  rfl

/-- Configurations that are written alike have the same tiers. -/
theorem tiers_of_enc_eq {c c' : Config}
    (h : (Config.codec dirs).enc c = (Config.codec dirs).enc c') : c.pii.tiers = c'.pii.tiers := by
  have hpii : PiiConfig.codec.enc c.pii = PiiConfig.codec.enc c'.pii := by
    simp only [Config.codec, Codec.record, Row.cons, Json.object.injEq, List.cons.injEq,
      Prod.mk.injEq, true_and] at h
    exact h.2.2.2.2.2.1
  have htiers : PiiTiersConfig.codec.enc c.pii.tiers = PiiTiersConfig.codec.enc c'.pii.tiers := by
    simp only [PiiConfig.codec, Codec.record, Row.cons, Json.object.injEq, List.cons.injEq,
      Prod.mk.injEq, true_and] at hpii
    exact hpii.2.1
  exact PiiTiersConfig.enc_inj htiers

/-- An accepted patch: the merged tree is read, and the tiers follow their rule. -/
theorem patch_eq_ok_iff : m.patch dirs p = (.ok res, m') ↔
    (Config.codec dirs).dec (merge ((Config.codec dirs).enc m.inner) p) = some m'.inner ∧
      validatePiiTiers m'.inner.pii.tiers = .ok () ∧
      res = ⟨true, requiresRestart m.inner m'.inner,
        (report ((Config.codec dirs).enc m.inner) p).map dotPath⟩ := by
  rw [ConfigManager.patch, jsonDeepMerge_eq]
  dsimp only
  rcases m' with ⟨c'⟩
  cases hread : (Config.codec dirs).dec (merge ((Config.codec dirs).enc m.inner) p) with
  | none => exact iff_of_false (fun h => by cases h) fun h => by cases h.1
  | some c =>
      dsimp only
      cases htiers : validatePiiTiers c.pii.tiers with
      | error e =>
          refine iff_of_false (fun h => by cases h) ?_
          rintro ⟨hc, hok, _⟩
          rw [← Option.some.inj hc, htiers] at hok
          cases hok
      | ok _ =>
          rw [Prod.mk.injEq, Except.ok.injEq, ConfigManager.mk.injEq, Option.some.injEq]
          constructor
          · rintro ⟨rfl, rfl⟩
            exact ⟨rfl, htiers, rfl⟩
          · rintro ⟨rfl, _, rfl⟩
            exact ⟨rfl, rfl⟩

/-- A patch that fits the shape is reported exactly and settles. -/
theorem exact_of_outcome (h : m.patch dirs p = (.ok res, m'))
    (hout : JsonTree.Outcome (Config.codec dirs).shape ((Config.codec dirs).enc m.inner)
      ((Config.codec dirs).enc m'.inner) p)
    (hc : Conforms (Config.codec dirs).shape p) : PatchExact dirs m m' p res.changedKeys := by
  rcases patch_eq_ok_iff.mp h with ⟨_, htiers, rfl⟩
  rcases hout.exact hc with ⟨hreported, hkept⟩
  refine ⟨fun path => ?_, hkept, ?_⟩
  · rw [List.mem_map]
    constructor
    · rintro ⟨q, hq, rfl⟩
      rcases (hreported q).mp hq with ⟨hleaf, hdiff⟩
      exact ⟨q, hleaf, rfl, hdiff⟩
    · rintro ⟨q, hleaf, rfl, hdiff⟩
      exact ⟨q, (hreported q).mpr ⟨hleaf, hdiff⟩, rfl⟩
  · rcases hout.settled hc with ⟨hquiet, hnorm⟩
    rcases (Config.lawful_codec dirs).read hnorm with ⟨c, hread, henc⟩
    refine ⟨_, ⟨c⟩, patch_eq_ok_iff.mpr ⟨hread, ?_, rfl⟩, ?_⟩
    · change validatePiiTiers c.pii.tiers = .ok ()
      rw [tiers_of_enc_eq henc]
      exact htiers
    · rw [hquiet, List.map_nil]

/-- An accepted patch is reported exactly if and only if it is written as it is
    read: a value for every setting, an object for every section, and null for any
    other key. -/
theorem patch_exact_iff (hp : p.Distinct) (h : m.patch dirs p = (.ok res, m')) :
    PatchExact dirs m m' p res.changedKeys ↔ Conforms (Config.codec dirs).shape p := by
  have hout := Codec.outcome (Config.lawful_codec dirs) hp (patch_eq_ok_iff.mp h).1
  refine ⟨fun hexact => ?_, exact_of_outcome h hout⟩
  by_contra hno
  -- the same patch is reported again
  rcases hexact.settled with ⟨res', m'', hagain, hnil⟩
  rcases patch_eq_ok_iff.mp hagain with ⟨_, _, rfl⟩
  exact hout.again hno (List.map_eq_nil_iff.mp hnil)

end Patch

/-- The directories of a user. -/
def userDirs : Dirs where
  defaultLogsDir := lit "/home/user/.config/privacyclaw/logs"
  defaultModelsDir := lit "/home/user/.config/privacyclaw/models"

/-- `{"pii": {"mode": "detect-only"}}`. -/
def modePatch : Json Str := Json.nested [lit "pii", lit "mode"] (.string (lit "detect-only"))

/-- `{"pii": {"slm": {"confidence_threshold": 0.7}}}`, with the double next to 0.7. -/
def thresholdPatch : Json Str :=
  Json.nested [lit "pii", lit "slm", lit "confidence_threshold"]
    (.number (.float ⟨false, 0x3FE6666666666666, by decide⟩))

theorem patch_exact_iff_mode :
    modePatch.Distinct ∧
      ConfigManager.patch userDirs ⟨.default userDirs⟩ modePatch =
        (.ok ⟨true, false, [lit "pii.mode"]⟩,
          ⟨{ Config.default userDirs with
              pii := { PiiConfig.default userDirs with mode := lit "detect-only" } }⟩) ∧
      PatchExact userDirs ⟨.default userDirs⟩
        ⟨{ Config.default userDirs with
            pii := { PiiConfig.default userDirs with mode := lit "detect-only" } }⟩
        modePatch [lit "pii.mode"] := by
  have hp : modePatch.Distinct := Json.distinct_nested (Json.distinct_of_not rfl) _
  have hfits : Conforms (Config.codec userDirs).shape modePatch := by
    refine conforms_single (Config.lawful_codec userDirs).sound (t := PiiConfig.codec.shape) ?_ ?_
    · exact Or.inr (Or.inr (Or.inr (Or.inr (Or.inr (Or.inl ⟨rfl, rfl⟩)))))
    · exact conforms_single PiiConfig.lawful_codec.sound (Or.inl ⟨rfl, rfl⟩) rfl
  have h : ConfigManager.patch userDirs ⟨.default userDirs⟩ modePatch =
      (.ok ⟨true, false, [lit "pii.mode"]⟩,
        ⟨{ Config.default userDirs with
            pii := { PiiConfig.default userDirs with mode := lit "detect-only" } }⟩) := by
    decide
  exact ⟨hp, h, (patch_exact_iff hp h).mpr hfits⟩

/-- The threshold is 0.7 before and after, and it is reported. -/
theorem patch_not_exact :
    thresholdPatch.Distinct ∧
      ConfigManager.patch userDirs ⟨.default userDirs⟩ thresholdPatch =
        (.ok ⟨true, false, [lit "pii.slm.confidence_threshold"]⟩, ⟨.default userDirs⟩) ∧
      ¬ PatchExact userDirs ⟨.default userDirs⟩ ⟨.default userDirs⟩ thresholdPatch
        [lit "pii.slm.confidence_threshold"] := by
  refine ⟨Json.distinct_nested (Json.distinct_of_not rfl) _, by decide, fun h => ?_⟩
  rcases (h.reported _).mp List.mem_cons_self with ⟨q, _, _, hdiff⟩
  exact hdiff rfl

end PrivacyClaw
