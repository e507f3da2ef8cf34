import LatteC.Sds.SplitLaw
import LatteC.Utils.Numeric

/-!
# Configuration

`src/config/config.c`: rules, each with a value somewhere in the program, and the ways to give them
values: from their defaults, from the text of a configuration file, from the arguments of the program,
and one at a time.

## Modelling

The functions a rule is created with are those of its kind, so a rule carries the kind. The value that
`data_ctx` points to is part of the rule; two rules do not share it. A value that is a pointer can be
`NULL`, which is `none` here.

A map is the list of its entries in the order in which they were added. In what order an iterator
visits them is up to the hash table and is left open (`ConfigEnv.order`), as are the files. `include`
makes loading recursive, so loading is given a depth that it may reach.

The argument `config_value` of `_config_load_string` is always `NULL` here. What is written to the log
and to `stderr` is left out, except for the texts of the errors.
-/

namespace LatteC

/-- What loading does not return from. -/
inductive ConfigHalt where
  /-- `exit(1)`, as in a failed assertion. -/
  | exit
  /-- Reading outside of the memory of a value. -/
  | fault
  /-- Counting lines or arguments beyond what fits into an `int`. -/
  | overflow
  /-- The files are nested more deeply than allowed for. -/
  | depth
deriving DecidableEq

/-- The world outside of the rules. -/
structure ConfigEnv where
  /-- The contents of the files that can be opened. -/
  files : List UInt8 → Option (List UInt8)
  /-- The order in which an iterator visits a map, given the entries as they were added. -/
  order : List (List UInt8 × List UInt8) → List (List UInt8 × List UInt8)
  order_perm : ∀ m, (order m).Perm m

/-- The order of addition is an order. -/
theorem id_perm : ∀ m : List (List UInt8 × List UInt8), (id m).Perm m := List.Perm.refl

/-- No file can be opened, and maps are visited as they were added to. -/
def configEnvNoFiles : ConfigEnv where
  files := fun _ ↦ none
  order := id
  order_perm := id_perm

/-- The kinds of rules. -/
inductive ConfigKind where
  | numeric (lowerBound upperBound : ℤ)
  | sds
  | enum (enumValue : List (List UInt8 × ℤ))
  | bool
  | sdsArray
  | mapSdsSds
  | appendMapSdsSds

/-- The values of a rule. -/
def ConfigKind.Value : ConfigKind → Type
  | .numeric _ _ => ℤ
  | .sds => Option (List UInt8)
  | .enum _ => ℤ
  | .bool => Bool
  | .sdsArray => Option (List (List UInt8))
  | .mapSdsSds => Option (List (List UInt8 × List UInt8))
  | .appendMapSdsSds => Option (List (List UInt8 × List UInt8))

/-- `config_rule_t`. -/
structure ConfigRule where
  kind : ConfigKind
  /-- The flag `CONFIG_FLAG_DISABLE_WRITE`. -/
  disableWrite : Bool
  /-- The flag `CONFIG_FLAG_DISABLE_SAVE`. -/
  disableSave : Bool
  value : kind.Value
  checkValue : Option (kind.Value → kind.Value → Bool)
  defaultValue : Option (List UInt8)

/-- `config_manager_t`: the rules by name, in the order of an iterator. -/
structure ConfigManager where
  rules : List (List UInt8 × ConfigRule)

/-- `str_cmp(a, b) == 0`. -/
def strEq (a b : List UInt8) : Bool := cString a = cString b

/-! ## The rules -/

/-- `config_get_rule`. -/
def configGetRule (m : ConfigManager) (key : List UInt8) : Option ConfigRule :=
  (m.rules.find? fun e ↦ strEq e.1 key).map Prod.snd

/-- Replace the rule that a name stands for. -/
def setEntry (key : List UInt8) (rule : ConfigRule) :
    List (List UInt8 × ConfigRule) → List (List UInt8 × ConfigRule)
  | [] => []
  | e :: es => if strEq e.1 key then (e.1, rule) :: es else e :: setEntry key rule es

/-- A value is stored in the rule that a name stands for. -/
def ConfigManager.set (m : ConfigManager) (key : List UInt8) (rule : ConfigRule) : ConfigManager :=
  ⟨setEntry key rule m.rules⟩

/-- What all functions `load_*_value` with a single argument do first. -/
def loadSingle {α : Type} (argv : List (List UInt8)) (load : List UInt8 → Except String α) :
    Except String α :=
  match argv with
  | [value] => load value
  | _ => .error "error: argc != 1"

/-- `load_int64_value`. -/
def loadInt64Value (argv : List (List UInt8)) : Except String ℤ :=
  loadSingle argv fun value ↦
    match sds2ll value with
    | none => .error "error: sds2ll failed"
    | some v => .ok v

/-- `load_sds_value`. -/
def loadSdsValue (argv : List (List UInt8)) : Except String (Option (List UInt8)) :=
  loadSingle argv fun value ↦ .ok (some value)

/-- `load_enum_value`. -/
def loadEnumValue (enumValue : List (List UInt8 × ℤ)) (argv : List (List UInt8)) : Except String ℤ :=
  loadSingle argv fun value ↦
    match enumValue.find? fun e ↦ strEq value e.1 with
    | none => .error "error: enum value not found"
    | some e => .ok e.2

/-- `"yes"`. -/
def yesBytes : List UInt8 := [121, 101, 115]

/-- `"no"`. -/
def noBytes : List UInt8 := [110, 111]

/-- `load_bool_value`. -/
def loadBoolValue (argv : List (List UInt8)) : Except String Bool :=
  loadSingle argv fun value ↦
    if strEq value yesBytes then .ok true
    else if strEq value noBytes then .ok false
    else .error "error: bool value not found"

/-- `load_sds_array_value`. -/
def loadSdsArrayValue (argv : List (List UInt8)) : Except String (Option (List (List UInt8))) :=
  .ok (some (argv.map cString))

/-- The loop of `load_map_sds_sds_value`. -/
def loadMapLoop : (argv : List (List UInt8)) → (map : List (List UInt8 × List UInt8)) →
    Except String (List (List UInt8 × List UInt8))
  | key :: value :: argv, map =>
    if map.any fun e ↦ strEq e.1 key then .error "error: dict_add failed"
    else loadMapLoop argv (map ++ [(cString key, cString value)])
  | _, map => .ok map

/-- `load_map_sds_sds_value`. -/
def loadMapSdsSdsValue (argv : List (List UInt8)) :
    Except String (Option (List (List UInt8 × List UInt8))) :=
  if argv.length % 2 ≠ 0 then .error "error: argc % 2 != 0"
  else (loadMapLoop argv []).map some

/-- `rule->load_value`. -/
def ConfigKind.loadValue : (kind : ConfigKind) → List (List UInt8) → Except String kind.Value
  | .numeric _ _ => loadInt64Value
  | .sds => loadSdsValue
  | .enum enumValue => loadEnumValue enumValue
  | .bool => loadBoolValue
  | .sdsArray => loadSdsArrayValue
  | .mapSdsSds => loadMapSdsSdsValue
  | .appendMapSdsSds => loadMapSdsSdsValue

/-- One turn of the loop of `append_map_sds_sds_value`. -/
def appendMapEntry (old : List (List UInt8 × List UInt8)) (e : List UInt8 × List UInt8) :
    List (List UInt8 × List UInt8) :=
  if old.any fun d ↦ strEq d.1 e.1 then
    old.map fun d ↦ if strEq d.1 e.1 then (d.1, e.2) else d
  else old ++ [e]

/-- `append_map_sds_sds_value`. The map that is appended has been loaded, and is not NULL. -/
def appendMapSdsSdsValue (E : ConfigEnv) (old new : Option (List (List UInt8 × List UInt8))) :
    Option (List (List UInt8 × List UInt8)) :=
  match old with
  | none => new
  | some old => some ((E.order (new.getD [])).foldl appendMapEntry old)

/-- `rule->set_value`. Every kind of rule returns `1`. -/
def ConfigKind.setValue (E : ConfigEnv) : (kind : ConfigKind) → (old new : kind.Value) → kind.Value
  | .numeric _ _, _, new => new
  | .sds, _, new => new
  | .enum _, _, new => new
  | .bool, _, new => new
  | .sdsArray, _, new => new
  | .mapSdsSds, _, new => new
  | .appendMapSdsSds, old, new => appendMapSdsSdsValue E old new

/-- `is_valid_int64_value`. -/
def isValidInt64Value (lowerBound upperBound value : ℤ) : Bool :=
  !(value < lowerBound || upperBound < value)

/-! ## Comparing values -/

/-- `cmp_int64_value`, and `cmp_enum_value`. The difference is returned as an `int`. -/
def cmpInt64Value (a b : ℤ) : ℤ := (a - b).bmod (2 ^ 32)

/-- `cmp_sds_value`. -/
def cmpSdsValue : (a b : Option (List UInt8)) → Option ℤ
  | some a, some b => some (sdsCmp a b)
  | _, _ => none

/-- `cmp_bool_value`. -/
def cmpBoolValue (a b : Bool) : ℤ := if a = b then 0 else 1

/-- `cmp_sds_array_value`. -/
def cmpSdsArrayValue : (a b : Option (List (List UInt8))) → Option ℤ
  | some a, some b =>
    some (if a.length ≠ b.length then 1
      else if (a.zip b).any fun p ↦ sdsCmp p.1 p.2 ≠ 0 then 1 else 0)
  | _, _ => none

/-- `dict_fetch_value` on a map of strings. -/
def mapFetchValue (map : List (List UInt8 × List UInt8)) (key : List UInt8) : Option (List UInt8) :=
  (map.find? fun e ↦ strEq e.1 key).map Prod.snd

/-- What `cmp_map_sds_sds_value` and `cmp_append_map_sds_sds_value` look for: an entry of the first
map that is not in the second. -/
def mapDiffers (a b : List (List UInt8 × List UInt8)) : Bool :=
  a.any fun e ↦
    match mapFetchValue b e.1 with
    | none => true
    | some value => sdsCmp e.2 value ≠ 0

/-- `cmp_map_sds_sds_value`. -/
def cmpMapSdsSdsValue : (a b : Option (List (List UInt8 × List UInt8))) → Option ℤ
  | some a, some b =>
    some (if a.length ≠ b.length then 1 else if mapDiffers a b then 1 else 0)
  | _, _ => none

/-- `cmp_append_map_sds_sds_value`. -/
def cmpAppendMapSdsSdsValue : (a b : Option (List (List UInt8 × List UInt8))) → Option ℤ
  | some a, some b => some (if mapDiffers b a then 1 else 0)
  | none, some [] => some 0
  | _, _ => none

/-- `rule->cmp_value`. -/
def ConfigKind.cmpValue : (kind : ConfigKind) → (a b : kind.Value) → Option ℤ
  | .numeric _ _ => fun a b ↦ some (cmpInt64Value a b)
  | .sds => cmpSdsValue
  | .enum _ => fun a b ↦ some (cmpInt64Value a b)
  | .bool => fun a b ↦ some (cmpBoolValue a b)
  | .sdsArray => cmpSdsArrayValue
  | .mapSdsSds => cmpMapSdsSdsValue
  | .appendMapSdsSds => cmpAppendMapSdsSdsValue

/-! ## Printing -/

/-- `to_sds_int64_value`. -/
def toSdsInt64Value (key : List UInt8) (data : ℤ) : Except ConfigHalt (Option (List UInt8)) :=
  match ll2sds data with
  | none => .error .fault
  | some value => .ok (some (key ++ 32 :: cString value))

/-- `to_sds_sds_value`. -/
def toSdsSdsValue (key : List UInt8) (data : Option (List UInt8)) : Option (List UInt8) :=
  data.map fun s ↦ key ++ 32 :: cString s

/-- `to_sds_enum_value`. -/
def toSdsEnumValue (enumValue : List (List UInt8 × ℤ)) (key : List UInt8) (data : ℤ) :
    Except ConfigHalt (Option (List UInt8)) :=
  match enumValue.find? fun e ↦ e.2 = data with
  | none => .error .exit
  | some e => .ok (some (key ++ 32 :: cString e.1))

/-- `to_sds_bool_value`. -/
def toSdsBoolValue (key : List UInt8) (value : Bool) : List UInt8 :=
  key ++ 32 :: if value then yesBytes else noBytes

/-- `to_sds_sds_array_value`. -/
def toSdsSdsArrayValue (key : List UInt8) : (data : Option (List (List UInt8))) → List UInt8
  | none => []
  | some array => key ++ array.flatMap fun s ↦ 32 :: cString s

/-- `to_sds_map_sds_sds_value`. -/
def toSdsMapSdsSdsValue (E : ConfigEnv) (key : List UInt8) :
    (data : Option (List (List UInt8 × List UInt8))) → List UInt8
  | none => []
  | some map => key ++ (E.order map).flatMap fun e ↦ 32 :: cString e.1 ++ 32 :: cString e.2

/-- `rule->to_sds`. The key is a C string. -/
def ConfigKind.toSds (E : ConfigEnv) (key : List UInt8) :
    (kind : ConfigKind) → (data : kind.Value) → Except ConfigHalt (Option (List UInt8))
  | .numeric _ _, data => toSdsInt64Value (cString key) data
  | .sds, data => .ok (toSdsSdsValue (cString key) data)
  | .enum enumValue, data => toSdsEnumValue enumValue (cString key) data
  | .bool, data => .ok (some (toSdsBoolValue (cString key) data))
  | .sdsArray, data => .ok (some (toSdsSdsArrayValue (cString key) data))
  | .mapSdsSds, data => .ok (some (toSdsMapSdsSdsValue E (cString key) data))
  | .appendMapSdsSds, data => .ok (some (toSdsMapSdsSdsValue E (cString key) data))

/-- `config_rule_to_sds`. -/
def configRuleToSds (E : ConfigEnv) (m : ConfigManager) (key : List UInt8) :
    Except ConfigHalt (Option (List UInt8)) :=
  match configGetRule m key with
  | none => .ok none
  | some rule => if rule.disableSave then .ok none else rule.kind.toSds E key rule.value

/-! ## Creating rules -/

/-- `config_rule_new_numeric_rule`. -/
def configRuleNewNumericRule (disableWrite disableSave : Bool) (dataCtx : ℤ) (lowerBound upperBound : ℤ)
    (checkValue : Option (ℤ → ℤ → Bool)) (defaultValue : ℤ) : ConfigRule where
  kind := .numeric lowerBound upperBound
  disableWrite := disableWrite
  disableSave := disableSave
  value := dataCtx
  checkValue := checkValue
  defaultValue := ll2sds defaultValue

/-! ## Giving values -/

/-- One turn of the loop of `config_init_all_data`: the rule with its default, or `none` for an error. -/
def configInitRule (E : ConfigEnv) (rule : ConfigRule) : Except ConfigHalt (Option ConfigRule) :=
  match rule.defaultValue with
  | none => .ok (some rule)
  | some default =>
    match sdsSplitArgs default with
    | none => .error .overflow
    | some none => .ok none
    | some (some argv) =>
      match rule.kind.loadValue argv with
      | .error _ => .ok none
      | .ok value => .ok (some { rule with value := rule.kind.setValue E rule.value value })

/-- The loop of `config_init_all_data`. It stops at the first error. -/
def configInitLoop (E : ConfigEnv) :
    List (List UInt8 × ConfigRule) → Except ConfigHalt (List (List UInt8 × ConfigRule) × Option ℕ)
  | [] => .ok ([], some 0)
  | e :: es =>
    match configInitRule E e.2 with
    | .error halt => .error halt
    | .ok none => .ok (e :: es, none)
    | .ok (some rule) => (configInitLoop E es).map fun r ↦ ((e.1, rule) :: r.1, r.2.map (· + 1))

/-- `config_init_all_data`. -/
def configInitAllData (E : ConfigEnv) (m : ConfigManager) : Except ConfigHalt (ConfigManager × ℕ) :=
  (configInitLoop E m.rules).map fun r ↦ (⟨r.1⟩, r.2.getD 0)

/-- `"include"`. -/
def includeBytes : List UInt8 := [105, 110, 99, 108, 117, 100, 101]

/-- One turn of the loop of `_config_load_string`: the rules, and the error if there is one.
`loadFile` is `_config_load_file`. -/
def configLoadLine (E : ConfigEnv)
    (loadFile : ConfigManager → List UInt8 → Except ConfigHalt (ConfigManager × ℤ))
    (m : ConfigManager) (line : List UInt8) : Except ConfigHalt (ConfigManager × Option String) :=
  let line := sdsTrim line blanks
  if line.headD 0 = 35 ∨ line.headD 0 = 0 then .ok (m, none)
  else
    match sdsSplitArgs line with
    | none => .error .overflow
    | some none => .ok (m, some "Unbalanced quotes in configuration line")
    -- `argv[0]` is not there
    | some (some []) => .error .fault
    | some (some (name :: args)) =>
      if strEq name includeBytes then
        match args with
        | [] => .ok (m, some "Include file name is missing")
        | path :: _ =>
          (loadFile m (cString path)).map fun r ↦
            (r.1, if r.2 = 0 then some "Error loading include file" else none)
      else
        match configGetRule m name with
        | none => .ok (m, some "Unknown configuration option")
        | some rule =>
          match rule.kind.loadValue args with
          | .error err => .ok (m, some err)
          | .ok value =>
            .ok (m.set name { rule with value := rule.kind.setValue E rule.value value }, none)

/-- The loop of `_config_load_string`. -/
def configLoadLines (E : ConfigEnv)
    (loadFile : ConfigManager → List UInt8 → Except ConfigHalt (ConfigManager × ℤ)) :
    ConfigManager → (lines : List (List UInt8)) → Except ConfigHalt (ConfigManager × ℤ)
  | m, [] => .ok (m, 1)
  | m, line :: lines =>
    match configLoadLine E loadFile m line with
    | .error halt => .error halt
    | .ok (m, some _) => .ok (m, 0)
    | .ok (m, none) => configLoadLines E loadFile m lines

/-- `config_load_string`, which loads files down to a depth. -/
def configLoadString (E : ConfigEnv) : (depth : ℕ) → ConfigManager → (str : List UInt8) →
    Except ConfigHalt (ConfigManager × ℤ)
  | 0, _, _ => .error .depth
  | depth + 1, m, str =>
    match sdsSplitLen str [10] with
    | none => .error .overflow
    | some (lines, _) =>
      configLoadLines E
        (fun m path ↦
          match E.files path with
          | none => .error .exit
          | some text => configLoadString E depth m text)
        m lines

/-- The text that `config_load_argv` puts together. -/
def configArgvText : (argv : List (List UInt8)) → (formatConfSds : List UInt8) → List UInt8
  | [], conf => conf
  | arg :: argv, conf =>
    if arg.headD 0 = 45 ∧ arg.tail.headD 0 = 45 then
      configArgvText argv ((if conf.length ≠ 0 then conf ++ [10] else conf) ++ arg.drop 2 ++ [32])
    else configArgvText argv (sdsCatrepr conf arg ++ [32])

/-- `config_load_argv`. The arguments are C strings. -/
def configLoadArgv (E : ConfigEnv) (depth : ℕ) (m : ConfigManager) (argv : List (List UInt8)) :
    Except ConfigHalt (ConfigManager × ℤ) :=
  configLoadString E depth m (configArgvText (argv.map cString) [])

/-- `config_set_value`: the rules, what is returned, and the error. -/
def configSetValue (E : ConfigEnv) (m : ConfigManager) (argv : List (List UInt8)) :
    Except ConfigHalt (ConfigManager × ℤ × Option String) :=
  match argv with
  | [] => .error .fault
  | name :: args =>
    match configGetRule m name with
    | none => .ok (m, 0, some "Error: rule not found")
    | some rule =>
      if rule.disableWrite then .ok (m, 0, some "Error: rule is read only")
      else
        match rule.kind.loadValue args with
        | .error err => .ok (m, 0, some err)
        | .ok value =>
          if (rule.checkValue.map fun check ↦ check rule.value value) = some false then
            .ok (m, 0, some "Error: check_value failed")
          else
            match rule.kind.cmpValue rule.value value with
            | none => .error .fault
            | some cmp =>
              if cmp = 0 then .ok (m, 0, none)
              else
                .ok (m.set name { rule with value := rule.kind.setValue E rule.value value }, 1, none)

theorem not_isSpecial_of_isDigit {c : UInt8} (h : Decimal.IsDigit c) : ¬ IsSpecial c := by
  rintro (rfl | rfl | rfl | rfl | rfl | rfl | rfl) <;> exact absurd h (by decide)

/-- Numerals need no quotes. -/
theorem isPlain_numeral (v : ℤ) : IsPlain (Decimal.numeral v) := by
  have hnat : ∀ n c, c ∈ Decimal.natNumeral n → ¬ IsSpecial c ∧ isspace c = false := by
    intro n c hc
    have hdigit := Decimal.isDigit_of_mem_natNumeral hc
    exact ⟨not_isSpecial_of_isDigit hdigit, isspace_of_isDigit hdigit⟩
  obtain ⟨d, ds, heq, -⟩ := Decimal.natNumeral_ne_minus v.natAbs
  have hd := hnat v.natAbs d (by rw [heq]; exact List.mem_cons_self)
  rw [Decimal.numeral]
  split_ifs
  · refine ⟨rfl, ?_⟩
    rw [List.forall_mem_cons]
    exact ⟨by decide, fun c hc ↦ (hnat _ c hc).1⟩
  · refine ⟨?_, fun c hc ↦ (hnat _ c hc).1⟩
    rw [heq, List.head?_cons, Option.map_some, hd.2]

/-! ## The rule that a name stands for -/

theorem strEq_comm (a b : List UInt8) : strEq a b = strEq b a := by
  rw [strEq, strEq]
  exact decide_eq_decide.mpr eq_comm

theorem strEq_congr_right {a b : List UInt8} (h : strEq a b = true) (c : List UInt8) :
    strEq c a = strEq c b := by
  rw [strEq, decide_eq_true_iff] at h
  rw [strEq, strEq, h]

theorem strEq_self (a : List UInt8) : strEq a a = true := decide_eq_true rfl

theorem configGetRule_cons (e : List UInt8 × ConfigRule) (es : List (List UInt8 × ConfigRule))
    (key : List UInt8) : configGetRule ⟨e :: es⟩ key =
      if strEq e.1 key then some e.2 else configGetRule ⟨es⟩ key := by
  rw [configGetRule, List.find?_cons]
  cases strEq e.1 key <;> rfl

theorem configGetRule_congr {a b : List UInt8} (h : strEq a b = true) (m : ConfigManager) :
    configGetRule m a = configGetRule m b := by
  simp only [configGetRule, strEq_congr_right h]

/-- Storing a rule under the name of one that is there. -/
theorem configGetRule_set_self {m : ConfigManager} {key : List UInt8} {rule : ConfigRule}
    (h : configGetRule m key = some rule) (rule' : ConfigRule) :
    configGetRule (m.set key rule') key = some rule' := by
  obtain ⟨rules⟩ := m
  rw [ConfigManager.set]
  induction rules with
  | nil => cases h
  | cons e es ih =>
    rw [configGetRule_cons] at h
    rw [setEntry]
    split_ifs at h ⊢ with he
    · rw [configGetRule_cons, if_pos he]
    · rw [configGetRule_cons, if_neg he, ih h]

theorem configGetRule_set_of_ne {key name : List UInt8} (h : strEq name key = false)
    (m : ConfigManager) (rule : ConfigRule) :
    configGetRule (m.set name rule) key = configGetRule m key := by
  obtain ⟨rules⟩ := m
  rw [ConfigManager.set]
  induction rules with
  | nil => rfl
  | cons e es ih =>
    rw [setEntry]
    split_ifs with he
    · have hne : ¬ strEq e.1 key = true := by
        rw [strEq_comm, strEq_congr_right he, strEq_comm, h]
        decide
      rw [configGetRule_cons, configGetRule_cons, if_neg hne, if_neg hne]
    · rw [configGetRule_cons, configGetRule_cons, ih]

/-! ## What a call can do -/

/-- The rules after an argument list was obeyed: one of them has a new value. -/
def Obeys (E : ConfigEnv) (m : ConfigManager) (argv : List (List UInt8)) (m' : ConfigManager) : Prop :=
  ∃ name args rule value, argv = name :: args ∧ configGetRule m name = some rule ∧
    rule.kind.loadValue args = .ok value ∧
    m' = m.set name { rule with value := rule.kind.setValue E rule.value value }

/-- `config_set_value` changes nothing or obeys its arguments. -/
theorem configSetValue_cases {E : ConfigEnv} {m m' : ConfigManager} {argv : List (List UInt8)}
    {r : ℤ × Option String} (h : configSetValue E m argv = .ok (m', r)) :
    m' = m ∨ Obeys E m argv m' := by
  cases argv with
  | nil => cases h
  | cons name args =>
    rw [configSetValue] at h
    cases hrule : configGetRule m name with
    | none =>
      rw [hrule] at h
      cases h
      exact Or.inl rfl
    | some rule =>
      simp only [hrule] at h
      split_ifs at h with hwrite
      · cases h
        exact Or.inl rfl
      · cases hvalue : rule.kind.loadValue args with
        | error err =>
          simp only [hvalue] at h
          cases h
          exact Or.inl rfl
        | ok value =>
          simp only [hvalue] at h
          split_ifs at h with hcheck
          · cases h
            exact Or.inl rfl
          · cases hcmp : rule.kind.cmpValue rule.value value with
            | none =>
              simp only [hcmp] at h
              cases h
            | some cmp =>
              simp only [hcmp] at h
              split_ifs at h
              · cases h
                exact Or.inl rfl
              · cases h
                exact Or.inr ⟨name, args, rule, value, rfl, hrule, hvalue, rfl⟩

/-- A line that is neither empty nor a comment and includes no file, with its arguments. -/
structure LineArgs (line : List UInt8) (argv : List (List UInt8)) : Prop where
  not_comment : (sdsTrim line blanks).headD 0 ≠ 35
  not_empty : (sdsTrim line blanks).headD 0 ≠ 0
  split_eq : sdsSplitArgs (sdsTrim line blanks) = some (some argv)
  not_include : strEq (argv.headD []) includeBytes = false

/-- There are not too many arguments. -/
theorem LineArgs.args_eq {line : List UInt8} {argv : List (List UInt8)} (h : LineArgs line argv) :
    sdsArgs (sdsTrim line blanks) = some argv ∧ argv.length < 2 ^ 31 :=
  sdsSplitArgs_eq_some_iff.mp h.split_eq

/-- A line changes nothing, or it includes a file, or its arguments are obeyed. -/
theorem configLoadLine_cases {E : ConfigEnv}
    {loadFile : ConfigManager → List UInt8 → Except ConfigHalt (ConfigManager × ℤ)}
    {m m' : ConfigManager} {line : List UInt8} {err : Option String}
    (h : configLoadLine E loadFile m line = .ok (m', err)) :
    m' = m ∨ (∃ path r, loadFile m path = .ok (m', r)) ∨
      ∃ argv, LineArgs line argv ∧ Obeys E m argv m' := by
  rw [configLoadLine] at h
  split_ifs at h with hskip
  · cases h
    exact Or.inl rfl
  · obtain ⟨hcomment, hempty⟩ := not_or.mp hskip
    rcases hsplit : sdsSplitArgs (sdsTrim line blanks) with _ | _ | _ | ⟨name, args⟩
    · simp only [hsplit] at h
      cases h
    · simp only [hsplit] at h
      cases h
      exact Or.inl rfl
    · simp only [hsplit] at h
      cases h
    · simp only [hsplit] at h
      split_ifs at h with hinclude
      · cases args with
        | nil =>
          cases h
          exact Or.inl rfl
        | cons path args =>
          simp only at h
          cases hload : loadFile m (cString path) with
          | error halt => rw [hload] at h; cases h
          | ok r =>
            rw [hload] at h
            cases h
            exact Or.inr (Or.inl ⟨_, r.2, hload⟩)
      · cases hrule : configGetRule m name with
        | none =>
          simp only [hrule] at h
          cases h
          exact Or.inl rfl
        | some rule =>
          simp only [hrule] at h
          cases hvalue : rule.kind.loadValue args with
          | error err =>
            simp only [hvalue] at h
            cases h
            exact Or.inl rfl
          | ok value =>
            simp only [hvalue] at h
            cases h
            exact Or.inr (Or.inr ⟨name :: args, ⟨hcomment, hempty, hsplit,
              Bool.eq_false_iff.mpr hinclude⟩, name, args, rule, value, rfl, hrule, hvalue, rfl⟩)

/-- Loading a text of one line whose arguments are accepted. -/
theorem configLoadString_of_lineArgs {E : ConfigEnv} (depth : ℕ) {m : ConfigManager}
    {str line name : List UInt8} {args : List (List UInt8)}
    (hsplit : sdsSplitLen str [10] = some ([line], 1)) (hargs : LineArgs line (name :: args))
    {rule : ConfigRule} (hrule : configGetRule m name = some rule) {value : rule.kind.Value}
    (hvalue : rule.kind.loadValue args = .ok value) :
    configLoadString E (depth + 1) m str =
      .ok (m.set name { rule with value := rule.kind.setValue E rule.value value }, 1) := by
  have hskip : ¬ ((sdsTrim line blanks).headD 0 = 35 ∨ (sdsTrim line blanks).headD 0 = 0) :=
    not_or.mpr ⟨hargs.not_comment, hargs.not_empty⟩
  have hinclude : ¬ strEq name includeBytes = true := Bool.eq_false_iff.mp hargs.not_include
  simp only [configLoadString, hsplit, configLoadLines, configLoadLine, hargs.split_eq, hrule, hvalue,
    if_neg hskip, if_neg hinclude]

/-- What every line and every file preserves, loading a text preserves. -/
theorem configLoadString_invariant {E : ConfigEnv} {P : ConfigManager → Prop}
    {L : List UInt8 → Prop}
    (hobey : ∀ {m m' line argv}, P m → L line → LineArgs line argv → Obeys E m argv m' → P m')
    (hfiles : ∀ {path text lines n}, E.files path = some text → sdsSplitLen text [10] = some (lines, n) →
      ∀ line ∈ lines, L line) :
    ∀ {depth : ℕ} {m m' : ConfigManager} {str : List UInt8} {r : ℤ}, P m →
      (∀ {lines n}, sdsSplitLen str [10] = some (lines, n) → ∀ line ∈ lines, L line) →
      configLoadString E depth m str = .ok (m', r) → P m' := by
  intro depth
  induction depth with
  | zero =>
    intro m m' str r _ _ h
    cases h
  | succ depth ih =>
    intro m m' str r hm hok h
    have hkeep : ∀ {m m' line err}, P m → L line → configLoadLine E (fun m path ↦
        match E.files path with
        | none => .error .exit
        | some text => configLoadString E depth m text) m line = .ok (m', err) → P m' := by
      intro m m' line err hm hline h
      rcases configLoadLine_cases h with rfl | ⟨path, r, hload⟩ | ⟨argv, hargs, hobeys⟩
      · exact hm
      · cases htext : E.files path with
        | none =>
          simp only [htext] at hload
          cases hload
        | some text =>
          simp only [htext] at hload
          exact ih hm (hfiles htext) hload
      · exact hobey hm hline hargs hobeys
    rw [configLoadString] at h
    rcases hsplit : sdsSplitLen str [10] with _ | ⟨lines, n⟩
    · simp only [hsplit] at h
      cases h
    · simp only [hsplit] at h
      have hlines := hok hsplit
      clear hsplit hok
      induction lines generalizing m with
      | nil =>
        cases h
        exact hm
      | cons line lines ihl =>
        rw [List.forall_mem_cons] at hlines
        rw [configLoadLines] at h
        split at h
        · cases h
        · rename_i m₁ err hline
          cases h
          exact hkeep hm hlines.1 hline
        · rename_i m₁ hline
          exact ihl (hkeep hm hlines.1 hline) h hlines.2

end LatteC
