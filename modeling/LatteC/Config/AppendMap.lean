import LatteC.Config.Argv
import LatteC.Config.Stored

/-!
# Maps that are appended to

`append_map_sds_sds_value` goes through a new map and puts its entries into the one that is there, over the
value if there is one. So what the variable of such a rule holds after any calls is the union of all maps
that were loaded, later values over earlier ones. `cmp_append_map_sds_sds_value` asks whether the new map is
a part of the old one, and then it is not stored; which is the same, since a part adds nothing.

Loading a text makes calls for all rules, through the files it includes. Only those with the name of the rule
count, and of these the ones that the loader accepts.
-/

namespace LatteC

open PairMap

/-! ## One map into another -/

section Append

variable {old : List (List UInt8 × List UInt8)}

theorem lookup_configMap_cons (d : List UInt8 × List UInt8) (map : List (List UInt8 × List UInt8))
    (k : List UInt8) :
    (configMap (d :: map)).lookup k = if cString d.1 = k then some d.2 else (configMap map).lookup k :=
  lookup_ofPairs_cons _ _ _

theorem any_strEq_iff (e : List UInt8 × List UInt8) :
    (old.any fun d ↦ strEq d.1 e.1) = true ↔ cString e.1 ∈ old.map fun d ↦ cString d.1 := by
  simp only [List.any_eq_true, List.mem_map, strEq, decide_eq_true_iff]

/-- `dict_set_val` on the entry of a key. -/
theorem lookup_configMap_map (e : List UInt8 × List UInt8) (k : List UInt8) :
    (configMap (old.map fun d ↦ if strEq d.1 e.1 then (d.1, e.2) else d)).lookup k =
      if cString e.1 = k then ((configMap old).lookup k).map fun _ ↦ e.2 else (configMap old).lookup k := by
  induction old with
  | nil => exact (ite_self none).symm
  | cons d old ih =>
    have hkey : cString (if strEq d.1 e.1 then (d.1, e.2) else d).1 = cString d.1 := by
      split_ifs <;> rfl
    rw [List.map_cons, lookup_configMap_cons, ih, lookup_configMap_cons, hkey]
    by_cases hd : cString d.1 = k
    · rw [if_pos hd, if_pos hd, strEq, hd]
      by_cases he : cString e.1 = k
      · rw [if_pos he, if_pos (decide_eq_true he.symm), Option.map_some]
      · have hne : ¬decide (k = cString e.1) = true := fun h ↦ he (of_decide_eq_true h).symm
        rw [if_neg he, if_neg hne]
    · rw [if_neg hd, if_neg hd]

/-- `dict_add`. -/
theorem lookup_configMap_concat (e : List UInt8 × List UInt8) (k : List UInt8) :
    (configMap (old ++ [e])).lookup k =
      ((configMap old).lookup k).or (if cString e.1 = k then some e.2 else none) := by
  induction old with
  | nil =>
    rw [List.nil_append, lookup_configMap_cons]
    rfl
  | cons d old ih =>
    rw [List.cons_append, lookup_configMap_cons, ih, lookup_configMap_cons]
    split_ifs <;> rfl

theorem lookup_configMap_eq_none_iff (k : List UInt8) :
    (configMap old).lookup k = none ↔ k ∉ old.map fun d ↦ cString d.1 := by
  have hfst : (old.map fun d ↦ (cString d.1, d.2)).map Prod.fst = old.map fun d ↦ cString d.1 := List.map_map
  rw [configMap, Finmap.lookup_eq_none, ← Finmap.mem_keys, mem_keys_ofPairs_iff, hfst]

/-- **One entry** is inserted. -/
theorem configMap_appendMapEntry (old : List (List UInt8 × List UInt8)) (e : List UInt8 × List UInt8) :
    configMap (appendMapEntry old e) = (configMap old).insert (cString e.1) e.2 := by
  refine Finmap.ext_lookup fun k ↦ ?_
  have hinsert : ((configMap old).insert (cString e.1) e.2).lookup k =
      if cString e.1 = k then some e.2 else (configMap old).lookup k := by
    split_ifs with hk
    · rw [← hk, Finmap.lookup_insert]
    · exact Finmap.lookup_insert_of_ne _ (Ne.symm hk)
  rw [hinsert, appendMapEntry]
  by_cases hany : (old.any fun d ↦ strEq d.1 e.1) = true
  · rw [if_pos hany, lookup_configMap_map]
    split_ifs with hk
    · -- the key is there, and its value is written over
      have hmem := (any_strEq_iff e).mp hany
      rw [hk] at hmem
      obtain ⟨v, hv⟩ := Option.ne_none_iff_exists'.mp fun h ↦ (lookup_configMap_eq_none_iff k).mp h hmem
      rw [hv, Option.map_some]
    · rfl
  · rw [if_neg hany, lookup_configMap_concat]
    split_ifs with hk
    · have hnone := (lookup_configMap_eq_none_iff k).mpr (by rwa [any_strEq_iff, hk] at hany)
      rw [hnone, Option.none_or]
    · exact Option.or_none

theorem KeysDistinct.appendMapEntry (h : KeysDistinct old) (e : List UInt8 × List UInt8) :
    KeysDistinct (appendMapEntry old e) := by
  rw [KeysDistinct, LatteC.appendMapEntry]
  split_ifs with hany
  · have hkeys : (old.map fun d ↦ if strEq d.1 e.1 then (d.1, e.2) else d).map (fun d ↦ cString d.1) =
        old.map fun d ↦ cString d.1 := by
      rw [List.map_map]
      refine List.map_congr_left fun d _ ↦ ?_
      rw [Function.comp_apply]
      split_ifs <;> rfl
    rw [hkeys]
    exact h
  · rw [any_strEq_iff] at hany
    rw [List.map_append, List.map_singleton, List.nodup_append]
    refine ⟨h, List.nodup_singleton _, ?_⟩
    intro k hk k' hk'
    rw [List.mem_singleton.mp hk']
    rintro rfl
    exact hany hk

theorem keysDistinct_foldl_appendMapEntry (es : List (List UInt8 × List UInt8)) (h : KeysDistinct old) :
    KeysDistinct (es.foldl appendMapEntry old) := by
  induction es generalizing old with
  | nil => exact h
  | cons e es ih => exact ih (h.appendMapEntry e)

theorem configMap_foldl_appendMapEntry (es : List (List UInt8 × List UInt8)) :
    configMap (es.foldl appendMapEntry old) =
      (es.map fun e ↦ (cString e.1, e.2)).foldl (fun m p ↦ m.insert p.1 p.2) (configMap old) := by
  induction es generalizing old with
  | nil => rfl
  | cons e es ih => rw [List.foldl_cons, ih, configMap_appendMapEntry, List.map_cons, List.foldl_cons]

/-- **Appending a map**, in whatever order it is visited, is the union with it. -/
theorem configMap_append (E : ConfigEnv) {new : List (List UInt8 × List UInt8)} (hnew : KeysDistinct new) :
    configMap ((E.order new).foldl appendMapEntry old) = configMap new ∪ configMap old := by
  have hperm := (E.order_perm new).map fun e ↦ (cString e.1, e.2)
  have hfst : (new.map fun e ↦ (cString e.1, e.2)).map Prod.fst = new.map fun e ↦ cString e.1 := List.map_map
  have hnd : ((new.map fun e ↦ (cString e.1, e.2)).map Prod.fst).Nodup := by
    rw [hfst]
    exact hnew
  rw [configMap_foldl_appendMapEntry, foldl_insert_eq_union ((hperm.map Prod.fst).nodup_iff.mpr hnd),
    ofPairs_perm hperm ((hperm.map Prod.fst).nodup_iff.mpr hnd)]
  rfl

/-- **Comparing** asks for a part. -/
theorem cmpAppendMapSdsSdsValue_some {new : List (List UInt8 × List UInt8)} (hnew : KeysDistinct new) :
    ∃ cmp, cmpAppendMapSdsSdsValue (some old) (some new) = some cmp ∧
      (cmp = 0 ↔ Sub (configMap new) (configMap old)) := by
  have hfst : (new.map fun e ↦ (cString e.1, e.2)).map Prod.fst = new.map fun e ↦ cString e.1 := List.map_map
  have hsub : Sub (configMap new) (configMap old) ↔ mapDiffers new old = false := by
    rw [mapDiffers_eq_false_iff, configMap, sub_ofPairs_iff (by rw [hfst]; exact hnew), List.forall_mem_map]
  refine ⟨_, rfl, ?_⟩
  rw [hsub]
  split_ifs with hdiffers
  · exact iff_of_false Int.one_ne_zero (by rw [hdiffers]; exact Bool.noConfusion)
  · exact iff_of_true rfl (Bool.eq_false_iff.mpr hdiffers)

end Append

/-! ## The rule -/

/-- The map of a rule that appends to it. -/
def ConfigRule.appendMap : ConfigRule → Option (List (List UInt8 × List UInt8))
  | ⟨.appendMapSdsSds, _, _, map, _, _⟩ => map
  | _ => none

/-- The rule of a name appends to a map, which is there, has no key twice and denotes this one. -/
def AppendMapHolds (m : ConfigManager) (key : List UInt8)
    (map : Finmap fun _ : List UInt8 ↦ List UInt8) : Prop :=
  ∃ rule l, configGetRule m key = some rule ∧ rule.appendMap = some l ∧ KeysDistinct l ∧ configMap l = map

/-- The map that a call loads into the rule of a name, if it is for that rule and the arguments make a map. -/
def loadedMap (key : List UInt8) (a : Assignment) : Option (Finmap fun _ : List UInt8 ↦ List UInt8) :=
  if strEq a.1 key then
    match loadMapSdsSdsValue a.2 with
    | .ok (some l) => some (configMap l)
    | _ => none
  else none

section Rule

variable {E : ConfigEnv} {m : ConfigManager} {key : List UInt8}
  {map : Finmap fun _ : List UInt8 ↦ List UInt8}

theorem appendMap_eq_some {rule : ConfigRule} {l : List (List UInt8 × List UInt8)}
    (h : rule.appendMap = some l) :
    ∃ disableWrite disableSave checkValue defaultValue,
      rule = ⟨.appendMapSdsSds, disableWrite, disableSave, some l, checkValue, defaultValue⟩ := by
  obtain ⟨kind, disableWrite, disableSave, value, checkValue, defaultValue⟩ := rule
  cases kind with
  | appendMapSdsSds =>
    obtain rfl : value = some l := h
    exact ⟨disableWrite, disableSave, checkValue, defaultValue, rfl⟩
  | numeric | sds | enum | bool | sdsArray | mapSdsSds => cases h

/-- What is loaded has no key twice. -/
theorem keysDistinct_of_load {args : List (List UInt8)} {value : Option (List (List UInt8 × List UInt8))}
    (h : loadMapSdsSdsValue args = .ok value) : ∃ new, value = some new ∧ KeysDistinct new :=
  @nonNull_of_loadValue .appendMapSdsSds trivial _ _ h

theorem loadedMap_of_load {name : List UInt8} (hname : strEq name key = true) {args : List (List UInt8)}
    {new : List (List UInt8 × List UInt8)} (h : loadMapSdsSdsValue args = .ok (some new)) :
    loadedMap key (name, args) = some (configMap new) := by
  rw [loadedMap, if_pos hname, h]

theorem loadedMap_of_error {name : List UInt8} {args : List (List UInt8)} {err : String}
    (h : loadMapSdsSdsValue args = .error err) : loadedMap key (name, args) = none := by
  rw [loadedMap, h]
  exact ite_self none

theorem loadedMap_of_ne {a : Assignment} (hname : strEq a.1 key = false) : loadedMap key a = none :=
  if_neg (Bool.eq_false_iff.mp hname)

/-- A new map is appended to the one of the rule. -/
theorem AppendMapHolds.set (E : ConfigEnv) {name : List UInt8} (hname : strEq name key = true)
    {rule : ConfigRule} {l new : List (List UInt8 × List UInt8)} (hrule : configGetRule m name = some rule)
    (hdistinct : KeysDistinct l) (hnew : KeysDistinct new) {rule' : ConfigRule}
    (hrule' : rule'.appendMap = appendMapSdsSdsValue E (some l) (some new)) :
    AppendMapHolds (m.set name rule') key (configMap new ∪ configMap l) := by
  refine ⟨rule', _, ?_, hrule', keysDistinct_foldl_appendMapEntry _ hdistinct, configMap_append E hnew⟩
  rw [← configGetRule_congr hname]
  exact configGetRule_set_self hrule rule'

/-- Storing a value under another name. -/
theorem AppendMapHolds.set_of_ne (h : AppendMapHolds m key map) {name : List UInt8}
    (hname : strEq name key = false) (rule : ConfigRule) : AppendMapHolds (m.set name rule) key map := by
  obtain ⟨rule', l, hget, hl⟩ := h
  exact ⟨rule', l, (configGetRule_set_of_ne hname m rule).trans hget, hl⟩

/-- **One call** of `load_value` and `set_value`. -/
theorem AppendMapHolds.assign (E : ConfigEnv) (h : AppendMapHolds m key map) (a : Assignment) :
    AppendMapHolds (m.assign E a) key (unionAll map (loadedMap key a).toList) := by
  obtain ⟨name, args⟩ := a
  cases hname : strEq name key with
  | false =>
    rw [loadedMap_of_ne hname, ConfigManager.assign]
    cases configGetRule m name with
    | none => exact h
    | some rule =>
      simp only
      cases rule.kind.loadValue args with
      | error err => exact h
      | ok value => exact h.set_of_ne hname _
  | true =>
    have hholds := h
    obtain ⟨rule, l, hget, hl, hdistinct, rfl⟩ := h
    obtain ⟨disableWrite, disableSave, checkValue, defaultValue, rfl⟩ := appendMap_eq_some hl
    rw [← configGetRule_congr hname] at hget
    rw [ConfigManager.assign, hget]
    simp only [ConfigKind.loadValue]
    cases hload : loadMapSdsSdsValue args with
    | error err =>
      rw [loadedMap_of_error hload]
      exact hholds
    | ok value =>
      obtain ⟨new, rfl, hnew⟩ := keysDistinct_of_load hload
      rw [loadedMap_of_load hname hload]
      exact AppendMapHolds.set E hname hget hdistinct hnew rfl

theorem AppendMapHolds.foldl_assign (h : AppendMapHolds m key map) (as : List Assignment) :
    AppendMapHolds (as.foldl (·.assign E) m) key (unionAll map (as.filterMap (loadedMap key))) := by
  induction as generalizing m map with
  | nil => exact h
  | cons a as ih =>
    have hrest := ih (h.assign E a)
    rw [← unionAll_append] at hrest
    rw [List.foldl_cons, List.filterMap_cons]
    cases hload : loadedMap key a with
    | none =>
      rw [hload] at hrest
      exact hrest
    | some new =>
      rw [hload] at hrest
      exact hrest

/-! ## Setting a value -/

/-- **Setting a value** of the rule returns: without an error, it returns `0` if the map is a part of the one
that is there, and it unites the two. -/
theorem AppendMapHolds.setValue (h : AppendMapHolds m key map) {name : List UInt8} {args : List (List UInt8)}
    {new : Finmap fun _ : List UInt8 ↦ List UInt8} (hload : loadedMap key (name, args) = some new) :
    ∃ m' r err, configSetValue E m (name :: args) = .ok (m', r, err) ∧ (err ≠ none → m' = m) ∧
      (err = none → (r = 0 ↔ Sub new map) ∧ AppendMapHolds m' key (new ∪ map)) := by
  have hholds := h
  obtain ⟨rule, l, hget, hl, hdistinct, rfl⟩ := h
  obtain ⟨disableWrite, disableSave, checkValue, defaultValue, rfl⟩ := appendMap_eq_some hl
  cases hname : strEq name key with
  | false =>
    rw [loadedMap_of_ne hname] at hload
    cases hload
  | true =>
    rw [← configGetRule_congr hname] at hget
    cases hvalue : loadMapSdsSdsValue args with
    | error err =>
      rw [loadedMap_of_error hvalue] at hload
      cases hload
    | ok value =>
      obtain ⟨new, rfl, hnew⟩ := keysDistinct_of_load hvalue
      rw [loadedMap_of_load hname hvalue] at hload
      obtain rfl := Option.some.inj hload
      obtain ⟨cmp, hcmp, hzero⟩ := @cmpAppendMapSdsSdsValue_some l new hnew
      simp only [configSetValue, hget, ConfigKind.loadValue, hvalue]
      split_ifs with hwrite hcheck
      · exact ⟨m, 0, _, rfl, fun _ ↦ rfl, fun h ↦ by cases h⟩
      · exact ⟨m, 0, _, rfl, fun _ ↦ rfl, fun h ↦ by cases h⟩
      · simp only [ConfigKind.cmpValue, hcmp]
        split_ifs with hcmp0
        · -- a part is not stored, and adds nothing
          have hsub := hzero.mp hcmp0
          refine ⟨m, 0, none, rfl, fun _ ↦ rfl, fun _ ↦ ⟨iff_of_true rfl hsub, ?_⟩⟩
          rw [hsub.union_eq]
          exact hholds
        · refine ⟨_, 1, none, rfl, fun h ↦ absurd rfl h, fun _ ↦ ⟨?_, ?_⟩⟩
          · exact iff_of_false Int.one_ne_zero (mt hzero.mpr hcmp0)
          · exact AppendMapHolds.set E hname hget hdistinct hnew rfl

/-- A call that loads no map into the rule leaves it as it is. -/
theorem AppendMapHolds.setValue_of_none (h : AppendMapHolds m key map) {name : List UInt8}
    {args : List (List UInt8)} (hload : loadedMap key (name, args) = none) {m' : ConfigManager}
    {r : ℤ × Option String} (hset : configSetValue E m (name :: args) = .ok (m', r)) :
    AppendMapHolds m' key map := by
  obtain rfl | ⟨name', args', rule, value, hargv, hrule, hvalue, rfl⟩ := configSetValue_cases hset
  · exact h
  · cases hargv
    cases hname : strEq name key with
    | false => exact h.set_of_ne hname _
    | true =>
      obtain ⟨rule', l, hget, hl, -⟩ := h
      obtain ⟨disableWrite, disableSave, checkValue, defaultValue, rfl⟩ := appendMap_eq_some hl
      rw [← configGetRule_congr hname, hrule] at hget
      obtain rfl := Option.some.inj hget
      obtain ⟨new, rfl, -⟩ := keysDistinct_of_load hvalue
      rw [loadedMap_of_load hname hvalue] at hload
      cases hload

/-- **One value**, with an error or without. -/
theorem AppendMapHolds.of_configSetValue (h : AppendMapHolds m key map) {name : List UInt8}
    {args : List (List UInt8)} {m' : ConfigManager} {r : ℤ} {err : Option String}
    (hset : configSetValue E m (name :: args) = .ok (m', r, err)) :
    AppendMapHolds m' key (unionAll map (if err = none then (loadedMap key (name, args)).toList else [])) := by
  cases hload : loadedMap key (name, args) with
  | none =>
    rw [Option.toList_none, ite_self]
    exact h.setValue_of_none hload hset
  | some new =>
    obtain ⟨m₁, r₁, err₁, hset₁, herror, hok⟩ := h.setValue (E := E) hload
    rw [hset] at hset₁
    cases hset₁
    split_ifs with herr
    · exact (hok herr).2
    · rw [herror herr]
      exact h

/-! ## Any calls -/

variable (E) in
/-- Calls of `config_load_string` and `config_set_value` that return, one after the other, with the calls of
`load_value` that they make. One of `config_set_value` with an error makes none that counts. -/
inductive ConfigRuns : ConfigManager → List Assignment → ConfigManager → Prop
  | nil (m : ConfigManager) : ConfigRuns m [] m
  | loadString {m m' m'' : ConfigManager} {as : List Assignment} {depth : ℕ} {str : List UInt8} {r : ℤ}
      (h : configLoadString E depth m str = .ok (m', r)) (hrest : ConfigRuns m' as m'') :
      ConfigRuns m (configStringCalls E depth m str ++ as) m''
  | setValue {m m' m'' : ConfigManager} {as : List Assignment} {name : List UInt8} {args : List (List UInt8)}
      {r : ℤ} (h : configSetValue E m (name :: args) = .ok (m', r, none)) (hrest : ConfigRuns m' as m'') :
      ConfigRuns m ((name, args) :: as) m''
  | setError {m m' m'' : ConfigManager} {as : List Assignment} {name : List UInt8} {args : List (List UInt8)}
      {r : ℤ} {err : String} (h : configSetValue E m (name :: args) = .ok (m', r, some err))
      (hrest : ConfigRuns m' as m'') : ConfigRuns m as m''

/-- What the rule holds after any calls. -/
theorem ConfigRuns.appendMapHolds {m' : ConfigManager} {as : List Assignment} (hruns : ConfigRuns E m as m')
    (h : AppendMapHolds m key map) :
    AppendMapHolds m' key (unionAll map (as.filterMap (loadedMap key))) := by
  induction hruns generalizing map with
  | nil => exact h
  | @loadString m₁ m₂ m₃ as depth str r hload hrest ih =>
    have hstep := h.foldl_assign (E := E) (configStringCalls E depth m₁ str)
    rw [← eq_foldl_configStringCalls hload] at hstep
    rw [List.filterMap_append, unionAll_append]
    exact ih hstep
  | @setValue m₁ m₂ m₃ as name args r hset hrest ih =>
    have hstep := ih (h.of_configSetValue hset)
    rw [if_pos rfl, ← unionAll_append] at hstep
    rw [List.filterMap_cons]
    cases hload : loadedMap key (name, args) with
    | none =>
      rw [hload] at hstep
      exact hstep
    | some new =>
      rw [hload] at hstep
      exact hstep
  | setError hset hrest ih => exact ih (h.of_configSetValue hset)

/-- **A map that is appended to.** After any calls it is the union, in order, of the map at first and all that
were loaded; and one more value that is accepted is taken for the same exactly if it is a part of that. -/
theorem configRuns_appendMap {m' : ConfigManager} {as : List Assignment} (h : AppendMapHolds m key map)
    (hruns : ConfigRuns E m as m') :
    AppendMapHolds m' key (unionAll map (as.filterMap (loadedMap key))) ∧
      ∀ name args new, loadedMap key (name, args) = some new →
        ∃ m'' r err, configSetValue E m' (name :: args) = .ok (m'', r, err) ∧
          (err = none → (r = 0 ↔ Sub new (unionAll map (as.filterMap (loadedMap key))))) := by
  have hholds := hruns.appendMapHolds h
  refine ⟨hholds, fun name args new hload ↦ ?_⟩
  obtain ⟨m'', r, err, hset, -, hok⟩ := hholds.setValue (E := E) hload
  exact ⟨m'', r, err, hset, fun herr ↦ (hok herr).1⟩

end Rule

/-- A rule that appends to a map. -/
def anyMapRule (value : Option (List (List UInt8 × List UInt8))) : ConfigRule where
  kind := .appendMapSdsSds
  disableWrite := false
  disableSave := false
  value := value
  checkValue := none
  defaultValue := none

/-- `"m a x"` as a line, and then `a y` as a value. -/
theorem configRuns_appendMap_two :
    ConfigRuns configEnvNoFiles ⟨[([109], anyMapRule (some []))]⟩ [([109], [[97], [120]]), ([109], [[97], [121]])]
        ⟨[([109], anyMapRule (some [([97], [121])]))]⟩ ∧
      AppendMapHolds ⟨[([109], anyMapRule (some [([97], [121])]))]⟩ [109]
        (unionAll ∅ [configMap [([97], [120])], configMap [([97], [121])]]) := by
  have hruns : ConfigRuns configEnvNoFiles ⟨[([109], anyMapRule (some []))]⟩
      [([109], [[97], [120]]), ([109], [[97], [121]])] ⟨[([109], anyMapRule (some [([97], [121])]))]⟩ := by
    have hload : configLoadString configEnvNoFiles 1 ⟨[([109], anyMapRule (some []))]⟩ [109, 32, 97, 32, 120] =
        .ok (⟨[([109], anyMapRule (some [([97], [120])]))]⟩, 1) := rfl
    have hset : configSetValue configEnvNoFiles ⟨[([109], anyMapRule (some [([97], [120])]))]⟩
        [[109], [97], [121]] = .ok (⟨[([109], anyMapRule (some [([97], [121])]))]⟩, 1, none) := rfl
    exact ConfigRuns.loadString hload (ConfigRuns.setValue hset (ConfigRuns.nil _))
  exact ⟨hruns, (configRuns_appendMap ⟨_, [], rfl, rfl, List.nodup_nil, rfl⟩ hruns).1⟩

end LatteC
