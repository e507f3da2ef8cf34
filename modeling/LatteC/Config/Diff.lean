import LatteC.Config.Include
import LatteC.Config.RoundTrip

/-!
# What has changed since a file was written

`config_diff_string` and `config_diff_file` of `src/config/config.c`. The file is loaded into a
dictionary instead of into the rules, and then the values of the rules are compared with what the file
gives them, through the lines that are printed for both.

## What the comparison tells

A rule that the file does not mention is compared with its default, but the printed line is compared
with the bare default, in front of which there is no name. So such a rule is listed although nothing
has changed, and one without a default, or without a value, is read through a null pointer. For the
rules that the file mentions, the lines tell the values apart as far as printing does.
-/

namespace LatteC

/-! ## Loading into a dictionary -/

/-- The values that a file gives, by the names that stand on its lines. The value of a rule comes with
the kind of the rule. -/
abbrev ConfigDict := List (List UInt8 × (Σ kind : ConfigKind, kind.Value))

/-- `dict_find`. -/
def configDictFind (D : ConfigDict) (key : List UInt8) : Option (Σ kind : ConfigKind, kind.Value) :=
  (D.find? fun e ↦ strEq e.1 key).map Prod.snd

/-- Change the value of the entry under a name. -/
def configDictSet (key : List UInt8) (v : Σ kind : ConfigKind, kind.Value) : ConfigDict → ConfigDict
  | [] => []
  | e :: es => if strEq e.1 key then (e.1, v) :: es else e :: configDictSet key v es

/-- A value for a rule, in the branch of `_config_load_string` for `config_value != NULL`. The entry of
a rule has the kind of the rule, so its value is read and stored by the functions of that kind. -/
def configDictStore (E : ConfigEnv) (D : ConfigDict) (name : List UInt8) (kind : ConfigKind)
    (args : List (List UInt8)) : Except String ConfigDict :=
  match kind.loadValue args with
  | .error err => .error err
  | .ok value =>
    match configDictFind D name with
    | none => .ok (D ++ [(name, ⟨kind, value⟩)])
    | some ⟨kind', old⟩ =>
      match kind'.loadValue args with
      | .error err => .error err
      | .ok value => .ok (configDictSet name ⟨kind', kind'.setValue E old value⟩ D)

/-- One turn of the loop of `_config_load_string`, into a dictionary. -/
def configDictLine (E : ConfigEnv) (m : ConfigManager)
    (loadFile : ConfigDict → List UInt8 → Except ConfigHalt (ConfigDict × ℤ))
    (D : ConfigDict) (line : List UInt8) : Except ConfigHalt (ConfigDict × Option String) :=
  let line := sdsTrim line blanks
  if line.headD 0 = 35 ∨ line.headD 0 = 0 then .ok (D, none)
  else
    match sdsSplitArgs line with
    | none => .error .overflow
    | some none => .ok (D, some "Unbalanced quotes in configuration line")
    | some (some []) => .error .fault
    | some (some (name :: args)) =>
      if strEq name includeBytes then
        match args with
        | [] => .ok (D, some "Include file name is missing")
        | path :: _ =>
          (loadFile D (cString path)).map fun r ↦
            (r.1, if r.2 = 0 then some "Error loading include file" else none)
      else
        match configGetRule m name with
        | none => .ok (D, some "Unknown configuration option")
        | some rule =>
          match configDictStore E D name rule.kind args with
          | .error err => .ok (D, some err)
          | .ok D => .ok (D, none)

/-- The loop of `_config_load_string`, into a dictionary. -/
def configDictLines (E : ConfigEnv) (m : ConfigManager)
    (loadFile : ConfigDict → List UInt8 → Except ConfigHalt (ConfigDict × ℤ)) :
    ConfigDict → (lines : List (List UInt8)) → Except ConfigHalt (ConfigDict × ℤ)
  | D, [] => .ok (D, 1)
  | D, line :: lines =>
    match configDictLine E m loadFile D line with
    | .error halt => .error halt
    | .ok (D, some _) => .ok (D, 0)
    | .ok (D, none) => configDictLines E m loadFile D lines

/-- `_config_load_string` into a dictionary, which loads files down to a depth. -/
def configDictString (E : ConfigEnv) (m : ConfigManager) : (depth : ℕ) → ConfigDict →
    (str : List UInt8) → Except ConfigHalt (ConfigDict × ℤ)
  | 0, _, _ => .error .depth
  | depth + 1, D, str =>
    match sdsSplitLen str [10] with
    | none => .error .overflow
    | some (lines, _) =>
      configDictLines E m
        (fun D path ↦
          match E.files path with
          | none => .error .exit
          | some text => configDictString E m depth D text)
        D lines

/-- `read_config_file_to_dict`. A file that cannot be opened is a null pointer. -/
def readConfigFileToDict (E : ConfigEnv) (m : ConfigManager) (depth : ℕ) (path : List UInt8) :
    Except ConfigHalt (ConfigDict × ℤ) :=
  match E.files path with
  | none => .error .fault
  | some text => configDictString E m depth [] text

/-! ## The difference -/

/-- `sds_cmp(a, b) == 0`. A null pointer is read through. -/
def sdsCmpEq : (a b : Option (List UInt8)) → Except ConfigHalt Bool
  | some a, some b => .ok (sdsCmp a b = 0)
  | _, _ => .error .fault

/-- One turn of the loop of `config_diff_string`: the line for the rule, if it has changed. -/
def configDiffRule (E : ConfigEnv) (D : ConfigDict) (key : List UInt8) (rule : ConfigRule) :
    Except ConfigHalt (Option (List UInt8)) :=
  if rule.disableSave then .ok none
  else do
    let nowStr ← rule.kind.toSds E key rule.value
    match configDictFind D key with
    | none =>
      if rule.defaultValue = none ∧ nowStr = none then .ok none
      else
        -- the default has no name in front of it
        let same ← sdsCmpEq nowStr rule.defaultValue
        .ok (if same then none else nowStr)
    | some ⟨kind, oldValue⟩ =>
      let oldStr ← kind.toSds E key oldValue
      let same ← sdsCmpEq oldStr nowStr
      .ok (if same then none else nowStr)

/-- The loop of `config_diff_string`: `change_dict`, with the lines by the names of their rules. The
names of the rules are distinct. -/
def configDiffChanges (E : ConfigEnv) (D : ConfigDict) :
    List (List UInt8 × ConfigRule) → Except ConfigHalt (List (List UInt8 × List UInt8))
  | [] => .ok []
  | (key, rule) :: rules => do
    let line ← configDiffRule E D key rule
    let changes ← configDiffChanges E D rules
    .ok (line.toList.map (key, ·) ++ changes)

/-- `"\n# change config\n"`. -/
def changeConfigBytes : List UInt8 :=
  [10, 35, 32, 99, 104, 97, 110, 103, 101, 32, 99, 111, 110, 102, 105, 103, 10]

/-- The text of the lines, in the order of an iterator. -/
def configDiffText (E : ConfigEnv) (changes : List (List UInt8 × List UInt8)) : Option (List UInt8) :=
  if changes.length = 0 then none
  else some (changeConfigBytes ++ (E.order changes).flatMap fun e ↦ cString e.2 ++ [10])

/-- `config_diff_string`. -/
def configDiffString (E : ConfigEnv) (m : ConfigManager) (D : ConfigDict) :
    Except ConfigHalt (Option (List UInt8)) :=
  (configDiffChanges E D m.rules).map (configDiffText E)

/-- `config_diff_file`. The assertion fails if the file is not loaded. -/
def configDiffFile (E : ConfigEnv) (depth : ℕ) (m : ConfigManager) (path : List UInt8) :
    Except ConfigHalt (Option (List UInt8)) := do
  let (D, result) ← readConfigFileToDict E m depth path
  if result = 1 then configDiffString E m D else .error .exit

/-! ## What it should list -/

/-- The names of the rules are distinct C strings. -/
def ConfigManager.Distinct (m : ConfigManager) : Prop :=
  m.rules.Pairwise fun a b ↦ strEq a.1 b.1 = false

/-- There is a line for the value: a string is not a null pointer, and a number stands for an
enumerator. -/
def ConfigKind.Shows : (kind : ConfigKind) → kind.Value → Prop
  | .sds => fun (s : Option (List UInt8)) ↦ s ≠ none
  | .enum enumValue => fun (v : ℤ) ↦ ∃ e ∈ enumValue, e.2 = v
  | _ => fun _ ↦ True

/-- The value of a numeric rule is an `int64_t`. -/
def ConfigKind.InRange : (kind : ConfigKind) → kind.Value → Prop
  | .numeric _ _ => fun (v : ℤ) ↦ IsInt64 v
  | _ => fun _ ↦ True

/-- The name of a rule and the strings of a value, with a space in front of each. An array or a map that is
a null pointer is nothing at all. -/
def ConfigKind.spelled (E : ConfigEnv) (key : List UInt8) : (kind : ConfigKind) → kind.Value → List UInt8
  | .sdsArray, none => []
  | .mapSdsSds, none => []
  | .appendMapSdsSds, none => []
  | kind, value => cString key ++ (kind.printed E value).flatMap (32 :: ·)

/-- Two values look the same in print exactly if they are. Numbers and truth values always do. The name of an
enumerator, or the characters of a string in front of a NUL, may be those of another one. The strings of an
array or of a map run together if there are blanks in them, and a map is printed in some order. -/
def ConfigKind.Apart (E : ConfigEnv) (key : List UInt8) :
    (kind : ConfigKind) → (a b : kind.Value) → Prop
  | .numeric _ _, _, _ => True
  | .bool, _, _ => True
  | .sds, a, b => (ConfigKind.sds).printed E a = (ConfigKind.sds).printed E b → a = b
  | .enum enumValue, a, b =>
    (ConfigKind.enum enumValue).printed E a = (ConfigKind.enum enumValue).printed E b → a = b
  | .sdsArray, a, b =>
    (ConfigKind.sdsArray).spelled E key a = (ConfigKind.sdsArray).spelled E key b → a = b
  | .mapSdsSds, a, b => ((ConfigKind.mapSdsSds).spelled E key a = (ConfigKind.mapSdsSds).spelled E key b ↔
      (ConfigKind.mapSdsSds).Same a b)
  | .appendMapSdsSds, a, b =>
    ((ConfigKind.appendMapSdsSds).spelled E key a = (ConfigKind.appendMapSdsSds).spelled E key b ↔
      (ConfigKind.appendMapSdsSds).Same a b)

section Exact

variable {E : ConfigEnv} {D : ConfigDict} {key : List UInt8} {rule : ConfigRule}

/-- The entries of the dictionary belong to rules, and have lines. -/
def Loaded (m : ConfigManager) (D : ConfigDict) : Prop :=
  ∀ e ∈ D, (∃ rule, configGetRule m e.1 = some rule ∧ rule.kind = e.2.1) ∧
    e.2.1.InRange e.2.2 ∧ e.2.1.Shows e.2.2

theorem loaded_of_loadValue {kind : ConfigKind} {args : List (List UInt8)} {value : kind.Value}
    (h : kind.loadValue args = .ok value) : kind.InRange value ∧ kind.Shows value := by
  cases kind with
  | numeric lo hi => exact ⟨(loadInt64Value_eq_ok h).1, trivial⟩
  | sds =>
    obtain ⟨s, -, hs⟩ := loadSingle_eq_ok h
    cases hs
    exact ⟨trivial, Option.some_ne_none s⟩
  | enum enumValue => exact ⟨trivial, loadEnumValue_eq_ok h⟩
  | bool | sdsArray | mapSdsSds | appendMapSdsSds => exact ⟨trivial, trivial⟩

theorem loaded_setValue {kind : ConfigKind} {old value : kind.Value}
    (h : kind.InRange value ∧ kind.Shows value) :
    kind.InRange (kind.setValue E old value) ∧ kind.Shows (kind.setValue E old value) := by
  cases kind with
  | appendMapSdsSds => exact ⟨trivial, trivial⟩
  | numeric | sds | enum | bool | sdsArray | mapSdsSds => exact h

section Loaded

variable {m : ConfigManager}

/-- A new value for the entry that is found under a name. -/
theorem Loaded.set {kind : ConfigKind} {old value : kind.Value}
    (hvalue : kind.InRange value ∧ kind.Shows value) (hD : Loaded m D)
    (hfind : configDictFind D key = some ⟨kind, old⟩) : Loaded m (configDictSet key ⟨kind, value⟩ D) := by
  induction D with
  | nil => cases hfind
  | cons e es ih =>
    obtain ⟨he, hes⟩ := List.forall_mem_cons.mp hD
    rw [configDictSet]
    by_cases hkey : strEq e.1 key = true
    · have hentry : e.2 = ⟨kind, old⟩ := by simpa [configDictFind, hkey] using hfind
      obtain ⟨rule, hrule, hkind⟩ := he.1
      rw [if_pos hkey]
      exact List.forall_mem_cons.mpr ⟨⟨⟨rule, hrule, by rw [hkind, hentry]⟩, hvalue⟩, hes⟩
    · rw [if_neg hkey]
      exact List.forall_mem_cons.mpr ⟨he, ih hes (by simpa [configDictFind, hkey] using hfind)⟩

theorem Loaded.store {D' : ConfigDict} {name : List UInt8} {args : List (List UInt8)}
    (hD : Loaded m D) (hrule : configGetRule m name = some rule)
    (h : configDictStore E D name rule.kind args = .ok D') : Loaded m D' := by
  rw [configDictStore] at h
  cases hvalue : rule.kind.loadValue args with
  | error err =>
    rw [hvalue] at h
    cases h
  | ok value =>
    cases hfind : configDictFind D name with
    | none =>
      simp only [hvalue, hfind] at h
      cases h
      refine List.forall_mem_append.mpr ⟨hD, fun e he ↦ ?_⟩
      rw [List.mem_singleton.mp he]
      exact ⟨⟨rule, hrule, rfl⟩, loaded_of_loadValue hvalue⟩
    | some old =>
      obtain ⟨kind, old⟩ := old
      cases hvalue' : kind.loadValue args with
      | error err =>
        simp only [hvalue, hfind, hvalue'] at h
        cases h
      | ok value' =>
        simp only [hvalue, hfind, hvalue'] at h
        cases h
        exact hD.set (loaded_setValue (loaded_of_loadValue hvalue')) hfind

/-- What one turn of the loop keeps, if the files that are included keep it. -/
theorem Loaded.line {D' : ConfigDict} {loadFile : ConfigDict → List UInt8 → Except ConfigHalt (ConfigDict × ℤ)}
    {line : List UInt8} {err : Option String} (hD : Loaded m D)
    (hfile : ∀ D path r, Loaded m D → loadFile D path = .ok r → Loaded m r.1)
    (h : configDictLine E m loadFile D line = .ok (D', err)) : Loaded m D' := by
  simp only [configDictLine] at h
  split_ifs at h
  · cases h
    exact hD
  split at h
  · cases h
  · cases h
    exact hD
  · cases h
  · split_ifs at h
    · split at h
      · cases h
        exact hD
      · rename_i path _ _
        cases hload : loadFile D (cString path) with
        | error halt =>
          rw [hload] at h
          cases h
        | ok r =>
          rw [hload] at h
          cases h
          exact hfile _ _ _ hD hload
    · split at h
      · cases h
        exact hD
      · rename_i rule hrule
        split at h
        · cases h
          exact hD
        · rename_i D'' hstore
          cases h
          exact hD.store hrule hstore

theorem Loaded.lines {loadFile : ConfigDict → List UInt8 → Except ConfigHalt (ConfigDict × ℤ)}
    (hfile : ∀ D path r, Loaded m D → loadFile D path = .ok r → Loaded m r.1) {lines : List (List UInt8)}
    {r : ConfigDict × ℤ} (hD : Loaded m D) (h : configDictLines E m loadFile D lines = .ok r) :
    Loaded m r.1 := by
  induction lines generalizing D with
  | nil =>
    cases h
    exact hD
  | cons line lines ih =>
    rw [configDictLines] at h
    split at h
    · cases h
    · rename_i hline
      cases h
      exact hD.line hfile hline
    · rename_i hline
      exact ih (hD.line hfile hline) h

theorem Loaded.string (depth : ℕ) : ∀ {D : ConfigDict} {text : List UInt8} {r : ConfigDict × ℤ},
    Loaded m D → configDictString E m depth D text = .ok r → Loaded m r.1 := by
  induction depth with
  | zero =>
    intro D text r _ h
    cases h
  | succ depth ih =>
    intro D text r hD h
    rw [configDictString] at h
    split at h
    · cases h
    · refine Loaded.lines (fun D path r hD hload ↦ ?_) hD h
      split at hload
      · cases hload
      · exact ih hD hload

/-- What is found under a name is a value of its rule. -/
theorem Loaded.find {old : Σ kind : ConfigKind, kind.Value} (hD : Loaded m D)
    (h : configDictFind D key = some old) :
    (∃ rule, configGetRule m key = some rule ∧ rule.kind = old.1) ∧
      old.1.InRange old.2 ∧ old.1.Shows old.2 := by
  obtain ⟨e, hfind, rfl⟩ := Option.map_eq_some_iff.mp h
  have hkey := List.find?_some hfind
  obtain ⟨⟨rule, hrule, hkind⟩, hvalue⟩ := hD e (List.mem_of_find?_eq_some hfind)
  exact ⟨⟨rule, by rw [← configGetRule_congr hkey, hrule], hkind⟩, hvalue⟩

end Loaded

end Exact

/-- A name stands for one rule. -/
theorem ConfigManager.Distinct.unique {m : ConfigManager} (h : m.Distinct) {key : List UInt8}
    {rule rule' : ConfigRule} (hmem : (key, rule) ∈ m.rules) (hmem' : (key, rule') ∈ m.rules) :
    rule = rule' := by
  obtain ⟨rules⟩ := m
  rw [ConfigManager.Distinct] at h
  induction rules with
  | nil => cases hmem
  | cons e rules ih =>
    obtain ⟨hhead, htail⟩ := List.pairwise_cons.mp h
    -- a later rule of the same name would be told apart from the first one
    have hne : ∀ r, e.1 = key → (key, r) ∉ rules := by
      rintro r rfl hr
      have := hhead _ hr
      rw [strEq_self] at this
      cases this
    rcases List.mem_cons.mp hmem with rfl | hin
    · rcases List.mem_cons.mp hmem' with heq | hin'
      · exact (Prod.mk.inj heq).2.symm
      · exact absurd hin' (hne _ rfl)
    · rcases List.mem_cons.mp hmem' with rfl | hin'
      · exact absurd hin (hne _ rfl)
      · exact ih htail hin hin'

theorem ConfigManager.Distinct.get {m : ConfigManager} (h : m.Distinct) {key : List UInt8}
    {rule : ConfigRule} (hmem : (key, rule) ∈ m.rules) : configGetRule m key = some rule := by
  obtain ⟨rules⟩ := m
  change rules.Pairwise _ at h
  induction rules with
  | nil => cases hmem
  | cons e rules ih =>
    obtain ⟨hhead, htail⟩ := List.pairwise_cons.mp h
    rw [configGetRule_cons]
    obtain rfl | hin := List.mem_cons.mp hmem
    · rw [if_pos (strEq_self key)]
    · have hne := hhead _ hin
      rw [hne, if_neg Bool.false_ne_true]
      exact ih hin htail

end LatteC
