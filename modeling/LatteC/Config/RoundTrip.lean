import LatteC.Config.Basic
import LatteC.Foundation.KeyedList

/-!
# Printing a rule and loading it again

`config_rule_to_sds` prints the strings of a value as they are, while `config_load_string` splits the
line into arguments and takes quotes and escape sequences for what they are elsewhere. The two agree on
the strings that need no quotes, and only there.

## The argument

If nothing needs quotes the line is split into what was printed. For the other direction, the line that
gave the rule its value has room for the name and for the strings of the value, with a separator behind
each; that is all the room there is in what was printed, so nothing in it was quoted.
-/

namespace LatteC

variable {E : ConfigEnv}

/-! ## Values that a rule can hold -/

/-- What the variable of a rule can hold before it is given a value. A map that is appended to starts
with nothing. -/
def ConfigKind.Fresh : (kind : ConfigKind) → kind.Value → Prop
  | .appendMapSdsSds, value => value = none
  | _, _ => True

/-- The values that a rule can hold after a value was loaded and stored. -/
inductive ConfigKind.Held (E : ConfigEnv) (kind : ConfigKind) : kind.Value → Prop
  | first {old new : kind.Value} {args : List (List UInt8)} (hold : kind.Fresh old)
    (hnew : kind.loadValue args = .ok new) : Held E kind (kind.setValue E old new)
  | next {old new : kind.Value} {args : List (List UInt8)} (hold : Held E kind old)
    (hnew : kind.loadValue args = .ok new) : Held E kind (kind.setValue E old new)

/-- Two values are the same. The order of the entries of a map does not count. -/
def ConfigKind.Same : (kind : ConfigKind) → kind.Value → kind.Value → Prop
  | .mapSdsSds, some a, some b => a.Perm b
  | .appendMapSdsSds, some a, some b => a.Perm b
  | _, a, b => a = b

/-- The strings that are printed for a value. -/
def ConfigKind.printed (E : ConfigEnv) : (kind : ConfigKind) → kind.Value → List (List UInt8)
  | .numeric _ _ => fun (v : ℤ) ↦ [Decimal.numeral v]
  | .sds => fun (s : Option (List UInt8)) ↦ s.toList.map cString
  | .enum enumValue => fun (v : ℤ) ↦
    (enumValue.find? fun e ↦ e.2 = v).toList.map fun e ↦ cString e.1
  | .bool => fun (b : Bool) ↦ [if b then yesBytes else noBytes]
  | .sdsArray => fun (array : Option (List (List UInt8))) ↦ (array.getD []).map cString
  | .mapSdsSds => printedMap
  | .appendMapSdsSds => printedMap
where
  /-- The keys and the values of a map, in the order of an iterator. -/
  printedMap (map : Option (List (List UInt8 × List UInt8))) : List (List UInt8) :=
    (E.order (map.getD [])).flatMap fun e ↦ [cString e.1, cString e.2]

/-- The value can be printed and loaded again: its strings need no quotes, and the name that is printed
for an enumerator stands for it. -/
def ConfigKind.Printable : (kind : ConfigKind) → kind.Value → Prop
  | .numeric _ _ => fun _ ↦ True
  | .sds => fun (s : Option (List UInt8)) ↦ ∀ x ∈ s, IsPlain x
  | .enum enumValue => fun (v : ℤ) ↦ ∀ e ∈ enumValue.find? fun e ↦ e.2 = v,
      IsPlain (cString e.1) ∧ loadEnumValue enumValue [cString e.1] = .ok v
  | .bool => fun _ ↦ True
  | .sdsArray => fun (array : Option (List (List UInt8))) ↦ ∀ x ∈ array.getD [], IsPlain x
  | .mapSdsSds => PrintableMap
  | .appendMapSdsSds => PrintableMap
where
  /-- The keys and the values of a map need no quotes. -/
  PrintableMap (map : Option (List (List UInt8 × List UInt8))) : Prop :=
    ∀ e ∈ map.getD [], IsPlain e.1 ∧ IsPlain e.2

/-- A name that a line can start with. -/
structure IsRuleName (key : List UInt8) : Prop where
  plain : IsPlain key
  not_comment : key.headD 0 ≠ 35
  not_include : strEq key includeBytes = false

/-- Loading the line gives the rule the value back, whatever value it has by then. -/
def Reloads (E : ConfigEnv) (depth : ℕ) (m : ConfigManager) (key : List UInt8) (rule : ConfigRule)
    (line : List UInt8) : Prop :=
  ∀ old : rule.kind.Value, rule.kind.Fresh old → ∃ m' new,
    configLoadString E depth (m.set key { rule with value := old }) line = .ok (m', 1) ∧
    configGetRule m' key = some { rule with value := new } ∧ rule.kind.Same new rule.value

/-! ## What is held -/

/-- The invariant of the values that a rule can hold: numbers fit, pointers are not `NULL`, and the keys of a
map are distinct C strings. -/
def ConfigKind.Wf : (kind : ConfigKind) → kind.Value → Prop
  | .numeric _ _ => fun (v : ℤ) ↦ IsInt64 v
  | .sds => fun (s : Option (List UInt8)) ↦ s ≠ none
  | .enum enumValue => fun (v : ℤ) ↦ ∃ e ∈ enumValue, e.2 = v
  | .bool => fun _ ↦ True
  | .sdsArray => fun (array : Option (List (List UInt8))) ↦ array ≠ none
  | .mapSdsSds => WfMap
  | .appendMapSdsSds => WfMap
where
  /-- The keys are distinct, and all strings are C strings. -/
  WfMap (map : Option (List (List UInt8 × List UInt8))) : Prop :=
    ∃ l, map = some l ∧ (l.map Prod.fst).Nodup ∧ ∀ e ∈ l, 0 ∉ e.1 ∧ 0 ∉ e.2

/-- The arguments two by two. -/
def argPairs : (argv : List (List UInt8)) → List (List UInt8 × List UInt8)
  | key :: value :: argv => (cString key, cString value) :: argPairs argv
  | _ => []

theorem zero_notMem_argPairs {argv : List (List UInt8)} :
    ∀ e ∈ argPairs argv, 0 ∉ e.1 ∧ 0 ∉ e.2 := by
  induction argv using argPairs.induct with
  | case1 key value argv ih =>
    rw [argPairs, List.forall_mem_cons]
    exact ⟨⟨zero_notMem_cString key, zero_notMem_cString value⟩, ih⟩
  | case2 argv hne =>
    rw [argPairs]
    · simp
    · exact hne

/-- Loading a map succeeds exactly when the keys are distinct. -/
theorem loadMapLoop_eq_ok_iff {argv : List (List UInt8)} :
    ∀ {map l : List (List UInt8 × List UInt8)}, (map.map Prod.fst).Nodup →
      (∀ e ∈ map, 0 ∉ e.1) →
      (loadMapLoop argv map = .ok l ↔ l = map ++ argPairs argv ∧ (l.map Prod.fst).Nodup) := by
  induction argv using argPairs.induct with
  | case1 key value argv ih =>
    intro map l hnodup hnul
    have hany : (map.any fun e ↦ strEq e.1 key) = true ↔ cString key ∈ map.map Prod.fst := by
      rw [List.any_eq_true, List.mem_map]
      constructor
      · rintro ⟨e, he, heq⟩
        rw [strEq, decide_eq_true_iff, cString_eq_self (hnul e he)] at heq
        exact ⟨e, he, heq⟩
      · rintro ⟨e, he, heq⟩
        exact ⟨e, he, by rw [strEq, decide_eq_true_iff, cString_eq_self (hnul e he), heq]⟩
    rw [loadMapLoop, argPairs]
    by_cases hmem : cString key ∈ map.map Prod.fst
    · rw [if_pos (hany.mpr hmem)]
      refine iff_of_false (by simp) ?_
      rintro ⟨rfl, hnd⟩
      rw [List.map_append, List.map_cons] at hnd
      exact (List.nodup_append.mp hnd).2.2 _ hmem _ List.mem_cons_self rfl
    · rw [if_neg fun h ↦ hmem (hany.mp h), ih, List.append_assoc, List.singleton_append]
      · rw [List.map_append, List.map_singleton, List.nodup_append]
        refine ⟨hnodup, List.nodup_singleton _, ?_⟩
        intro a ha b hb
        rw [List.mem_singleton.mp hb]
        rintro rfl
        exact hmem ha
      · intro e he
        rcases List.mem_append.mp he with he | he
        · exact hnul e he
        · rw [List.mem_singleton.mp he]
          exact zero_notMem_cString key
  | case2 argv hne =>
    intro map l hnodup hnul
    have hpairs : argPairs argv = [] := by
      rw [argPairs]
      exact hne
    have hload : loadMapLoop argv map = .ok map := by
      rw [loadMapLoop]
      exact hne
    rw [hload, hpairs, List.append_nil, Except.ok.injEq]
    constructor
    · rintro rfl
      exact ⟨rfl, hnodup⟩
    · rintro ⟨rfl, -⟩
      rfl

theorem loadMapSdsSdsValue_eq_ok {args : List (List UInt8)}
    {map : Option (List (List UInt8 × List UInt8))} (h : loadMapSdsSdsValue args = .ok map) :
    map = some (argPairs args) ∧ ((argPairs args).map Prod.fst).Nodup ∧ args.length % 2 = 0 := by
  rw [loadMapSdsSdsValue] at h
  split_ifs at h with hodd
  cases hload : loadMapLoop args [] with
  | error err =>
    rw [hload] at h
    cases h
  | ok l =>
    rw [hload] at h
    obtain ⟨rfl, hnodup⟩ := (loadMapLoop_eq_ok_iff (by simp) (by simp)).mp hload
    cases h
    exact ⟨rfl, hnodup, not_not.mp hodd⟩

theorem wfMap_loadMapSdsSdsValue {args : List (List UInt8)}
    {map : Option (List (List UInt8 × List UInt8))} (h : loadMapSdsSdsValue args = .ok map) :
    ConfigKind.Wf.WfMap map := by
  obtain ⟨rfl, hnodup, -⟩ := loadMapSdsSdsValue_eq_ok h
  exact ⟨_, rfl, hnodup, zero_notMem_argPairs⟩

theorem wfMap_appendMapEntry {l : List (List UInt8 × List UInt8)} {e : List UInt8 × List UInt8}
    (hl : ConfigKind.Wf.WfMap (some l)) (he : 0 ∉ e.1 ∧ 0 ∉ e.2) :
    ConfigKind.Wf.WfMap (some (appendMapEntry l e)) := by
  obtain ⟨l, h, hnodup, hnul⟩ := hl
  cases h
  refine ⟨_, rfl, ?_⟩
  rw [appendMapEntry]
  split_ifs with hany
  · have hkeys : (l.map fun d ↦ if strEq d.1 e.1 then (d.1, e.2) else d).map Prod.fst =
        l.map Prod.fst := by
      rw [List.map_map]
      refine List.map_congr_left fun d _ ↦ ?_
      rw [Function.comp_apply]
      split_ifs <;> rfl
    refine ⟨by rwa [hkeys], ?_⟩
    intro d' hd'
    obtain ⟨d, hd, rfl⟩ := List.mem_map.mp hd'
    split_ifs
    · exact ⟨(hnul d hd).1, he.2⟩
    · exact hnul d hd
  · have hnew : e.1 ∉ l.map Prod.fst := by
      intro hmem
      obtain ⟨d, hd, heq⟩ := List.mem_map.mp hmem
      refine hany (List.any_eq_true.mpr ⟨d, hd, ?_⟩)
      rw [heq]
      exact strEq_self _
    constructor
    · rw [List.map_append, List.map_singleton, List.nodup_append]
      refine ⟨hnodup, List.nodup_singleton _, ?_⟩
      intro a ha b hb
      rw [List.mem_singleton.mp hb]
      rintro rfl
      exact hnew ha
    · intro d hd
      rcases List.mem_append.mp hd with hd | hd
      · exact hnul d hd
      · rw [List.mem_singleton.mp hd]
        exact he

theorem wfMap_appendMapSdsSdsValue {old new : Option (List (List UInt8 × List UInt8))}
    (hold : old = none ∨ ConfigKind.Wf.WfMap old) (hnew : ConfigKind.Wf.WfMap new) :
    ConfigKind.Wf.WfMap (appendMapSdsSdsValue E old new) := by
  rcases hold with rfl | ⟨l, rfl, hl⟩
  · exact hnew
  · obtain ⟨n, rfl, -, hn⟩ := hnew
    have hperm : ∀ e ∈ E.order n, 0 ∉ e.1 ∧ 0 ∉ e.2 :=
      fun e he ↦ hn e ((E.order_perm n).mem_iff.mp he)
    have hwf : ConfigKind.Wf.WfMap (some l) := ⟨l, rfl, hl⟩
    change ConfigKind.Wf.WfMap (some ((E.order n).foldl appendMapEntry l))
    clear hl hn
    generalize E.order n = entries at hperm ⊢
    induction entries generalizing l with
    | nil => exact hwf
    | cons e es ih =>
      rw [List.forall_mem_cons] at hperm
      rw [List.foldl_cons]
      exact ih _ (wfMap_appendMapEntry hwf hperm.1) hperm.2

theorem loadSingle_eq_ok {α : Type} {argv : List (List UInt8)} {load : List UInt8 → Except String α}
    {a : α} (h : loadSingle argv load = .ok a) : ∃ value, argv = [value] ∧ load value = .ok a := by
  cases argv with
  | nil => cases h
  | cons value argv =>
    cases argv with
    | nil => exact ⟨value, rfl, h⟩
    | cons _ _ => cases h

theorem loadInt64Value_eq_ok {args : List (List UInt8)} {v : ℤ} (h : loadInt64Value args = .ok v) :
    IsInt64 v ∧ args = [Decimal.numeral v] := by
  obtain ⟨value, rfl, hvalue⟩ := loadSingle_eq_ok h
  cases hll : sds2ll value with
  | none =>
    rw [hll] at hvalue
    cases hvalue
  | some w =>
    rw [hll] at hvalue
    cases hvalue
    obtain ⟨hint, rfl⟩ := (string2ll_eq_some_iff value v).mp hll
    exact ⟨hint, rfl⟩

theorem loadEnumValue_eq_ok {enumValue : List (List UInt8 × ℤ)} {args : List (List UInt8)} {v : ℤ}
    (h : loadEnumValue enumValue args = .ok v) : ∃ e ∈ enumValue, e.2 = v := by
  obtain ⟨value, rfl, hvalue⟩ := loadSingle_eq_ok h
  cases hfind : enumValue.find? fun e ↦ strEq value e.1 with
  | none =>
    rw [hfind] at hvalue
    cases hvalue
  | some e =>
    rw [hfind] at hvalue
    cases hvalue
    exact ⟨e, List.mem_of_find?_eq_some hfind, rfl⟩

theorem ConfigKind.Held.wf {kind : ConfigKind} {value : kind.Value} (h : kind.Held E value) :
    kind.Wf value := by
  have hload : ∀ {args : List (List UInt8)} {new : kind.Value}, kind.loadValue args = .ok new →
      kind.Wf new := by
    intro args new hnew
    cases kind with
    | numeric lo hi => exact (loadInt64Value_eq_ok hnew).1
    | sds =>
      obtain ⟨value, -, hvalue⟩ := loadSingle_eq_ok hnew
      cases hvalue
      exact Option.some_ne_none value
    | enum enumValue => exact loadEnumValue_eq_ok hnew
    | bool => exact trivial
    | sdsArray =>
      cases hnew
      exact Option.some_ne_none _
    | mapSdsSds => exact wfMap_loadMapSdsSdsValue hnew
    | appendMapSdsSds => exact wfMap_loadMapSdsSdsValue hnew
  induction h with
  | @first old new args hold hnew =>
    have hwf := hload hnew
    cases kind with
    | appendMapSdsSds => exact wfMap_appendMapSdsSdsValue (Or.inl hold) hwf
    | numeric | sds | enum | bool | sdsArray | mapSdsSds => exact hwf
  | @next old new args hold hnew ih =>
    have hwf := hload hnew
    cases kind with
    | appendMapSdsSds => exact wfMap_appendMapSdsSdsValue (Or.inr ih) hwf
    | numeric | sds | enum | bool | sdsArray | mapSdsSds => exact hwf

/-- Obeying an argument list: the value of every rule is one that it can hold, or it is still the one
that it started with. -/
theorem held_of_obeys {m m' : ConfigManager} {argv : List (List UInt8)} (h : Obeys E m argv m')
    {key : List UInt8} {rule : ConfigRule} (hrule : configGetRule m key = some rule)
    (hold : rule.kind.Fresh rule.value ∨ rule.kind.Held E rule.value) :
    ∃ new, configGetRule m' key = some { rule with value := new } ∧
      (rule.kind.Held E new ∨ strEq (argv.headD []) key = false ∧ new = rule.value) := by
  obtain ⟨name, args, rule', value, rfl, hrule', hvalue, rfl⟩ := h
  by_cases hname : strEq name key = true
  · have heq := (configGetRule_congr hname m).symm.trans hrule'
    rw [hrule] at heq
    obtain rfl := Option.some.inj heq
    refine ⟨rule.kind.setValue E rule.value value, ?_, Or.inl ?_⟩
    · rw [← configGetRule_congr hname, configGetRule_set_self hrule']
    · rcases hold with hfresh | hheld
      · exact .first hfresh hvalue
      · exact .next hheld hvalue
  · have hfalse := Bool.eq_false_iff.mpr hname
    exact ⟨rule.value, by rw [configGetRule_set_of_ne hfalse, hrule], Or.inr ⟨hfalse, rfl⟩⟩

/-! ## What is printed -/

theorem toSdsInt64Value_eq {v : ℤ} (h : IsInt64 v) (key : List UInt8) :
    toSdsInt64Value key v = .ok (some (key ++ 32 :: Decimal.numeral v)) := by
  have hnul : 0 ∉ Decimal.numeral v := fun hmem ↦ (isPlain_numeral v).not_special 0 hmem (by decide)
  rw [toSdsInt64Value, ll2sds_eq h]
  simp only [cString_eq_self hnul]

theorem toSdsEnumValue_eq_ok {enumValue : List (List UInt8 × ℤ)} {v : ℤ} {key line : List UInt8}
    (h : toSdsEnumValue enumValue key v = .ok (some line)) :
    ∃ e, (enumValue.find? fun e ↦ e.2 = v) = some e ∧ line = key ++ 32 :: cString e.1 := by
  rw [toSdsEnumValue] at h
  cases hfind : enumValue.find? fun e ↦ e.2 = v with
  | none =>
    rw [hfind] at h
    cases h
  | some e =>
    rw [hfind] at h
    cases h
    exact ⟨e, rfl, rfl⟩

/-- The line is the name and the strings of the value, with a space in front of each. -/
theorem ConfigKind.toSds_eq {kind : ConfigKind} {value : kind.Value} (hwf : kind.Wf value)
    {key line : List UInt8} (h : kind.toSds E key value = .ok (some line)) :
    line = cString key ++ (kind.printed E value).flatMap (32 :: ·) := by
  have hmap : ∀ {map : Option (List (List UInt8 × List UInt8))}, ConfigKind.Wf.WfMap map →
      toSdsMapSdsSdsValue E (cString key) map =
        cString key ++ (ConfigKind.printed.printedMap E map).flatMap (32 :: ·) := by
    rintro _ ⟨l, rfl, -⟩
    rw [toSdsMapSdsSdsValue, ConfigKind.printed.printedMap, List.flatMap_assoc]
    simp
  cases kind with
  | numeric lo hi =>
    cases h.symm.trans (toSdsInt64Value_eq hwf (cString key))
    simp [ConfigKind.printed]
  | sds =>
    obtain ⟨s, rfl⟩ := Option.ne_none_iff_exists'.mp hwf
    cases h
    simp [ConfigKind.printed]
  | enum enumValue =>
    obtain ⟨e, hfind, rfl⟩ := toSdsEnumValue_eq_ok h
    simp [ConfigKind.printed, hfind]
  | bool =>
    cases h
    simp [ConfigKind.printed, toSdsBoolValue]
  | sdsArray =>
    obtain ⟨array, rfl⟩ := Option.ne_none_iff_exists'.mp hwf
    cases h
    simp [ConfigKind.printed, toSdsSdsArrayValue, List.flatMap_map]
  | mapSdsSds =>
    cases h
    exact hmap hwf
  | appendMapSdsSds =>
    cases h
    exact hmap hwf

theorem cString_of_isPlain {s : List UInt8} (h : IsPlain s) : cString s = s :=
  cString_eq_self fun hmem ↦ h.not_special 0 hmem (by decide)

/-- The first enumerator with a value that was loaded. -/
theorem exists_find_enum {enumValue : List (List UInt8 × ℤ)} {v : ℤ}
    (h : ∃ e ∈ enumValue, e.2 = v) : ∃ e, (enumValue.find? fun e ↦ e.2 = v) = some e := by
  obtain ⟨e, he, heq⟩ := h
  rw [← Option.isSome_iff_exists, List.find?_isSome]
  exact ⟨e, he, decide_eq_true heq⟩

theorem printed_enum_eq {enumValue : List (List UInt8 × ℤ)} {v : ℤ} {e : List UInt8 × ℤ}
    (h : (enumValue.find? fun e ↦ e.2 = v) = some e) :
    ConfigKind.printed E (.enum enumValue) v = [cString e.1] :=
  congrArg (fun o : Option (List UInt8 × ℤ) ↦ o.toList.map fun e : List UInt8 × ℤ ↦ cString e.1) h

theorem argPairs_flatMap {l : List (List UInt8 × List UInt8)} (h : ∀ e ∈ l, 0 ∉ e.1 ∧ 0 ∉ e.2) :
    argPairs (l.flatMap fun e ↦ [cString e.1, cString e.2]) = l := by
  induction l with
  | nil => rfl
  | cons e l ih =>
    rw [List.forall_mem_cons] at h
    have hself : ∀ {s : List UInt8}, 0 ∉ s → cString (cString s) = s := by
      intro s hs
      rw [cString_eq_self hs, cString_eq_self hs]
    rw [List.flatMap_cons, List.cons_append, List.cons_append, List.nil_append, argPairs, ih h.2,
      hself h.1.1, hself h.1.2]

theorem loadMapSdsSdsValue_printed {map : Option (List (List UInt8 × List UInt8))}
    (hwf : ConfigKind.Wf.WfMap map) (hprintable : ConfigKind.Printable.PrintableMap map) :
    (∀ x ∈ ConfigKind.printed.printedMap E map, IsPlain x) ∧
      ∃ l, map = some l ∧
        loadMapSdsSdsValue (ConfigKind.printed.printedMap E map) = .ok (some (E.order l)) := by
  obtain ⟨l, rfl, hnodup, hnul⟩ := hwf
  have hperm := E.order_perm l
  have hprinted : ∀ e ∈ E.order l, IsPlain e.1 ∧ IsPlain e.2 :=
    fun e he ↦ hprintable e (hperm.mem_iff.mp he)
  rw [ConfigKind.printed.printedMap, Option.getD_some]
  constructor
  · intro x hx
    obtain ⟨e, he, hmem⟩ := List.mem_flatMap.mp hx
    obtain ⟨hkey, hvalue⟩ := hprinted e he
    rw [cString_of_isPlain hkey, cString_of_isPlain hvalue] at hmem
    rcases List.mem_cons.mp hmem with rfl | hmem
    · exact hkey
    · rw [List.mem_singleton.mp hmem]
      exact hvalue
  · have heven : ((E.order l).flatMap fun e ↦ [cString e.1, cString e.2]).length % 2 = 0 := by
      simp
    have hpairs := argPairs_flatMap fun e he ↦ hnul e (hperm.mem_iff.mp he)
    have hload : loadMapLoop ((E.order l).flatMap fun e ↦ [cString e.1, cString e.2]) [] =
        .ok (E.order l) := by
      refine (loadMapLoop_eq_ok_iff (by simp) (by simp)).mpr ⟨by rw [hpairs, List.nil_append], ?_⟩
      exact (hperm.map Prod.fst).nodup_iff.mpr hnodup
    refine ⟨l, rfl, ?_⟩
    rw [loadMapSdsSdsValue, if_neg (not_not.mpr heven), hload]
    rfl

/-- Strings that need no quotes are loaded as they were printed. -/
theorem ConfigKind.loadValue_printed {kind : ConfigKind} {value : kind.Value} (hwf : kind.Wf value)
    (hprintable : kind.Printable value) :
    (∀ x ∈ kind.printed E value, IsPlain x) ∧
      ∃ new, kind.loadValue (kind.printed E value) = .ok new ∧ kind.Same new value := by
  cases kind with
  | numeric lo hi =>
    refine ⟨?_, value, ?_, rfl⟩
    · exact List.forall_mem_singleton.mpr (isPlain_numeral value)
    · change loadInt64Value [Decimal.numeral value] = .ok value
      have hll : sds2ll (Decimal.numeral value) = some value := sds2ll_numeral hwf
      rw [loadInt64Value, loadSingle, hll]
  | sds =>
    obtain ⟨s, rfl⟩ := Option.ne_none_iff_exists'.mp hwf
    have hs : IsPlain s := hprintable s rfl
    refine ⟨?_, some s, ?_, rfl⟩
    · refine List.forall_mem_singleton.mpr ?_
      rwa [cString_of_isPlain hs]
    · exact congrArg (fun x ↦ Except.ok (some x)) (cString_of_isPlain hs)
  | enum enumValue =>
    obtain ⟨e, hfind⟩ := exists_find_enum hwf
    obtain ⟨hplain, hload⟩ := hprintable e hfind
    have hprinted : ConfigKind.printed E (.enum enumValue) value = [cString e.1] :=
      printed_enum_eq hfind
    rw [hprinted]
    exact ⟨List.forall_mem_singleton.mpr hplain, value, hload, rfl⟩
  | bool =>
    refine ⟨?_, value, ?_, rfl⟩
    · refine List.forall_mem_singleton.mpr ?_
      cases value <;> decide
    · cases value <;> rfl
  | sdsArray =>
    obtain ⟨array, rfl⟩ := Option.ne_none_iff_exists'.mp hwf
    have harray : array.map cString = array :=
      (List.map_congr_left fun x hx ↦ cString_of_isPlain (hprintable x hx)).trans (List.map_id _)
    have hprinted : ConfigKind.printed E .sdsArray (some array) = array := harray
    rw [hprinted]
    exact ⟨hprintable, some array, congrArg (fun x ↦ Except.ok (some x)) harray, rfl⟩
  | mapSdsSds =>
    obtain ⟨hplain, l, rfl, hload⟩ := loadMapSdsSdsValue_printed (E := E) hwf hprintable
    exact ⟨hplain, some (E.order l), hload, E.order_perm l⟩
  | appendMapSdsSds =>
    obtain ⟨hplain, l, rfl, hload⟩ := loadMapSdsSdsValue_printed (E := E) hwf hprintable
    exact ⟨hplain, some (E.order l), hload, E.order_perm l⟩

/-! ## Loading what was printed -/

/-- Storing a value in a rule that has none yet. -/
theorem ConfigKind.setValue_of_fresh {kind : ConfigKind} {old : kind.Value} (h : kind.Fresh old)
    (new : kind.Value) : kind.setValue E old new = new := by
  cases kind with
  | appendMapSdsSds =>
    obtain rfl : old = none := h
    rfl
  | numeric | sds | enum | bool | sdsArray | mapSdsSds => rfl

theorem ConfigKind.setValue_of_ne {kind : ConfigKind} (h : kind ≠ .appendMapSdsSds)
    (old new : kind.Value) : kind.setValue E old new = new := by
  cases kind with
  | appendMapSdsSds => exact absurd rfl h
  | numeric | sds | enum | bool | sdsArray | mapSdsSds => rfl

/-- The line of a name and strings that need no quotes. -/
theorem lineArgs_plain {key : List UInt8} (hname : IsRuleName key) {args : List (List UInt8)}
    (hargs : ∀ x ∈ args, IsPlain x) (hcount : args.length + 1 < 2 ^ 31) :
    LineArgs (key ++ args.flatMap (32 :: ·)) (key :: args) ∧
      sdsSplitLen (key ++ args.flatMap (32 :: ·)) [10] = some ([key ++ args.flatMap (32 :: ·)], 1) := by
  have hplain := hname.plain
  have htrim := sdsTrim_plain hplain hargs
  cases key with
  | nil => cases hplain.head
  | cons c cs =>
    have hc : c ≠ 0 := by
      rintro rfl
      exact hplain.not_special 0 List.mem_cons_self (by decide)
    refine ⟨⟨?_, ?_, ?_, hname.not_include⟩, sdsSplitLen_of_notMem (List.cons_ne_nil _ _) ?_⟩
    · rw [htrim]
      exact hname.not_comment
    · rw [htrim]
      exact hc
    · rw [htrim]
      exact sdsSplitArgs_eq_some_iff.mpr ⟨sdsArgs_plain hplain hargs, hcount⟩
    · rw [List.mem_append, List.mem_flatMap]
      rintro (hmem | ⟨x, hx, hmem⟩)
      · exact hplain.not_special 10 hmem (by decide)
      · rcases List.mem_cons.mp hmem with h | hmem
        · cases h
        · exact (hargs x hx).not_special 10 hmem (by decide)

/-- The line of a value that needs no quotes is loaded. -/
theorem reloads_of_printable {m : ConfigManager} {key : List UInt8} {rule : ConfigRule} (depth : ℕ)
    (hrule : configGetRule m key = some rule) (hwf : rule.kind.Wf rule.value)
    (hname : IsRuleName (cString key)) (hprintable : rule.kind.Printable rule.value)
    (hcount : (rule.kind.printed E rule.value).length + 1 < 2 ^ 31) :
    Reloads E (depth + 1) m key rule
      (cString key ++ (rule.kind.printed E rule.value).flatMap (32 :: ·)) := by
  intro old hold
  obtain ⟨hplain, new, hload, hsame⟩ := ConfigKind.loadValue_printed (E := E) hwf hprintable
  obtain ⟨hargs, hsplit⟩ := lineArgs_plain hname hplain hcount
  have hkey : strEq (cString key) key = true := by
    rw [strEq, decide_eq_true_iff, cString_of_isPlain hname.plain]
  have hget := configGetRule_set_self hrule { rule with value := old }
  have hget' := (configGetRule_congr hkey _).trans hget
  refine ⟨_, new, configLoadString_of_lineArgs depth hsplit hargs hget' hload, ?_, hsame⟩
  rw [← configGetRule_congr hkey, configGetRule_set_self hget', ConfigKind.setValue_of_fresh hold]

/-! ## Where a loaded value comes from -/

/-- A value that was not there before comes from a line of the text. -/
theorem exists_line_of_load (hfiles : ∀ path, E.files path = none) {rule : ConfigRule}
    (hset : ∀ old new, rule.kind.setValue E old new = new) {m m' : ConfigManager} {key : List UInt8}
    {old new : rule.kind.Value} (hm : configGetRule m key = some { rule with value := old })
    {depth : ℕ} {str : List UInt8} {r : ℤ} (h : configLoadString E depth m str = .ok (m', r))
    (hget : configGetRule m' key = some { rule with value := new }) (hne : new ≠ old) :
    ∃ line ∈ textLines str, ∃ name args,
      LineArgs line (name :: args) ∧ strEq name key = true ∧ rule.kind.loadValue args = .ok new := by
  have hinv : ∃ v, configGetRule m' key = some { rule with value := v } ∧ (v = old ∨
      ∃ line ∈ textLines str, ∃ name args,
        LineArgs line (name :: args) ∧ strEq name key = true ∧ rule.kind.loadValue args = .ok v) := by
    refine configLoadString_invariant
      (P := fun m ↦ ∃ v, configGetRule m key = some { rule with value := v } ∧ (v = old ∨
        ∃ line ∈ textLines str, ∃ name args,
          LineArgs line (name :: args) ∧ strEq name key = true ∧ rule.kind.loadValue args = .ok v))
      (L := fun line ↦ line ∈ textLines str) ?_ ?_ ⟨old, hm, Or.inl rfl⟩
      (fun hsplit line hline ↦ (eq_textLines_of_sdsSplitLen hsplit).2 ▸ hline) h
    · rintro m m' line argv ⟨v, hv, hfrom⟩ hline hargs
        ⟨name, args, rule', value, rfl, hrule', hvalue, rfl⟩
      by_cases hname : strEq name key = true
      · rw [configGetRule_congr hname, hv] at hrule'
        obtain rfl := Option.some.inj hrule'
        refine ⟨value, ?_, Or.inr ⟨line, hline, name, args, hargs, hname, hvalue⟩⟩
        have hnew := configGetRule_set_self ((configGetRule_congr hname m).trans hv)
          { rule with value := rule.kind.setValue E v value }
        rw [hset, configGetRule_congr hname] at hnew
        rw [← hnew]
        exact congrArg (fun v ↦ configGetRule (m.set name { rule with value := v }) key) (hset v value)
      · exact ⟨v, by rw [configGetRule_set_of_ne (Bool.eq_false_iff.mpr hname), hv], hfrom⟩
    · intro path text lines n htext
      rw [hfiles] at htext
      cases htext
  obtain ⟨v, hv, hfrom⟩ := hinv
  have heq : v = new := by
    have := hv.symm.trans hget
    simpa using this
  subst heq
  exact hfrom.resolve_left hne

/-! ## The room that a value takes -/

theorem length_cString_le (s : List UInt8) : (cString s).length ≤ s.length :=
  (List.takeWhile_prefix _).length_le

theorem length_flatMap_space (args : List (List UInt8)) :
    (args.flatMap (32 :: ·)).length = argsRoom args := by
  induction args with
  | nil => rfl
  | cons x args ih =>
    rw [List.flatMap_cons, List.length_append, ih, argsRoom_cons, List.length_cons]

theorem argsRoom_map_cString_le (args : List (List UInt8)) :
    argsRoom (args.map cString) ≤ argsRoom args := by
  induction args with
  | nil => exact le_rfl
  | cons x args ih =>
    have := length_cString_le x
    rw [List.map_cons, argsRoom_cons, argsRoom_cons]
    omega

/-- The room that the entries of a map take. -/
def mapRoom (l : List (List UInt8 × List UInt8)) : ℕ :=
  (l.map fun e ↦ e.1.length + 1 + (e.2.length + 1)).sum

theorem mapRoom_argPairs_le (args : List (List UInt8)) : mapRoom (argPairs args) ≤ argsRoom args := by
  induction args using argPairs.induct with
  | case1 key value args ih =>
    have hkey := length_cString_le key
    have hvalue := length_cString_le value
    rw [mapRoom] at ih ⊢
    simp only [argPairs, List.map_cons, List.sum_cons, argsRoom_cons]
    omega
  | case2 args hne =>
    rw [argPairs]
    · exact Nat.zero_le _
    · exact hne

theorem argsRoom_printed_le (l : List (List UInt8 × List UInt8)) :
    argsRoom (l.flatMap fun e ↦ [cString e.1, cString e.2]) ≤ mapRoom l := by
  induction l with
  | nil => exact le_rfl
  | cons e l ih =>
    have hkey := length_cString_le e.1
    have hvalue := length_cString_le e.2
    rw [mapRoom] at ih ⊢
    rw [List.flatMap_cons, List.cons_append, List.cons_append, List.nil_append, argsRoom_cons,
      argsRoom_cons, List.map_cons, List.sum_cons]
    omega

theorem isPlain_of_mem_argPairs {args : List (List UInt8)} (h : ∀ x ∈ args, IsPlain x) :
    ∀ e ∈ argPairs args, IsPlain e.1 ∧ IsPlain e.2 := by
  induction args using argPairs.induct with
  | case1 key value args ih =>
    rw [List.forall_mem_cons, List.forall_mem_cons] at h
    rw [argPairs, List.forall_mem_cons, cString_of_isPlain h.1, cString_of_isPlain h.2.1]
    exact ⟨⟨h.1, h.2.1⟩, ih h.2.2⟩
  | case2 args hne =>
    rw [argPairs]
    · simp
    · exact hne

theorem loadBoolValue_eq_ok {args : List (List UInt8)} {b : Bool} (h : loadBoolValue args = .ok b) :
    ∃ x, args = [x] ∧ cString x = if b then yesBytes else noBytes := by
  obtain ⟨x, rfl, hx⟩ := loadSingle_eq_ok h
  refine ⟨x, rfl, ?_⟩
  split_ifs at hx with hyes hno
  · cases hx
    exact decide_eq_true_iff.mp hyes
  · cases hx
    exact decide_eq_true_iff.mp hno

theorem same_mapSdsSds {a : List (List UInt8 × List UInt8)}
    {value : Option (List (List UInt8 × List UInt8))}
    (h : ConfigKind.Same .mapSdsSds (some a) value) : ∃ l, value = some l ∧ a.Perm l := by
  cases value with
  | none => cases h
  | some l => exact ⟨l, rfl, h⟩

/-- The arguments from which a value was loaded take at least the room of what is printed for it, and
if they need no quotes then neither does the value. -/
theorem ConfigKind.argsRoom_printed {kind : ConfigKind} (henum : ∀ enumValue, kind ≠ .enum enumValue)
    (happend : kind ≠ .appendMapSdsSds) {args : List (List UInt8)} {new value : kind.Value}
    (hload : kind.loadValue args = .ok new) (hsame : kind.Same new value) :
    argsRoom (kind.printed E value) ≤ argsRoom args ∧
      ((∀ x ∈ args, IsPlain x) → kind.Printable value) := by
  cases kind with
  | numeric lo hi =>
    obtain rfl : new = value := hsame
    obtain ⟨-, rfl⟩ := loadInt64Value_eq_ok hload
    exact ⟨le_rfl, fun _ ↦ trivial⟩
  | sds =>
    obtain rfl : new = value := hsame
    obtain ⟨x, rfl, hx⟩ := loadSingle_eq_ok hload
    cases hx
    have := length_cString_le x
    refine ⟨?_, ?_⟩
    · change (cString x).length + 1 + 0 ≤ x.length + 1 + 0
      omega
    · intro hplain y hy
      cases hy
      exact hplain x List.mem_cons_self
  | enum enumValue => exact absurd rfl (henum enumValue)
  | bool =>
    obtain rfl : new = value := hsame
    obtain ⟨x, rfl, hx⟩ := loadBoolValue_eq_ok hload
    have hroom := argsRoom_map_cString_le [x]
    rw [List.map_singleton, hx] at hroom
    exact ⟨hroom, fun _ ↦ trivial⟩
  | sdsArray =>
    obtain rfl : new = value := hsame
    cases hload
    refine ⟨?_, ?_⟩
    · exact (argsRoom_map_cString_le _).trans (argsRoom_map_cString_le _)
    · intro hplain y hy
      obtain ⟨x, hx, rfl⟩ := List.mem_map.mp hy
      rw [cString_of_isPlain (hplain x hx)]
      exact hplain x hx
  | mapSdsSds =>
    obtain ⟨rfl, -, -⟩ := loadMapSdsSdsValue_eq_ok hload
    obtain ⟨l, rfl, hperm⟩ := same_mapSdsSds hsame
    refine ⟨?_, ?_⟩
    · calc argsRoom ((E.order l).flatMap fun e ↦ [cString e.1, cString e.2])
          ≤ mapRoom (E.order l) := argsRoom_printed_le _
        _ = mapRoom (argPairs args) := (((E.order_perm l).trans hperm.symm).map _).sum_eq
        _ ≤ argsRoom args := mapRoom_argPairs_le args
    · intro hplain e he
      exact isPlain_of_mem_argPairs hplain e (hperm.mem_iff.mpr he)
  | appendMapSdsSds => exact absurd rfl happend

theorem two_mul_length_argPairs_le (args : List (List UInt8)) : 2 * (argPairs args).length ≤ args.length := by
  induction args using argPairs.induct with
  | case1 key value args ih =>
    simp only [argPairs, List.length_cons]
    omega
  | case2 args hne =>
    rw [argPairs]
    · exact Nat.zero_le _
    · exact hne

/-- No more strings are printed for a value than it was loaded from. -/
theorem ConfigKind.length_printed_le {kind : ConfigKind} (happend : kind ≠ .appendMapSdsSds)
    {args : List (List UInt8)} {new value : kind.Value} (hload : kind.loadValue args = .ok new)
    (hsame : kind.Same new value) : (kind.printed E value).length ≤ args.length := by
  cases kind with
  | numeric lo hi =>
    obtain ⟨-, rfl⟩ := loadInt64Value_eq_ok hload
    exact le_rfl
  | sds =>
    obtain rfl : new = value := hsame
    obtain ⟨x, rfl, hx⟩ := loadSingle_eq_ok hload
    cases hx
    exact le_rfl
  | enum enumValue =>
    obtain ⟨x, rfl, -⟩ := loadSingle_eq_ok hload
    change ℤ at value
    change ((enumValue.find? fun e ↦ e.2 = value).toList.map fun e ↦ cString e.1).length ≤ 1
    cases enumValue.find? fun e ↦ e.2 = value with
    | none => exact Nat.zero_le 1
    | some e => exact le_rfl
  | bool =>
    obtain ⟨x, rfl, -⟩ := loadBoolValue_eq_ok hload
    exact le_rfl
  | sdsArray =>
    obtain rfl : new = value := hsame
    cases hload
    change ((args.map cString).map cString).length ≤ args.length
    rw [List.length_map, List.length_map]
  | mapSdsSds =>
    obtain ⟨rfl, -, -⟩ := loadMapSdsSdsValue_eq_ok hload
    obtain ⟨l, rfl, hperm⟩ := same_mapSdsSds hsame
    change ((E.order l).flatMap fun e ↦ [cString e.1, cString e.2]).length ≤ args.length
    have hlength : (E.order l).length = (argPairs args).length :=
      ((E.order_perm l).trans hperm.symm).length_eq
    have hpairs := two_mul_length_argPairs_le args
    rw [List.length_flatMap]
    simp only [List.length_cons, List.length_nil, List.map_const', List.sum_replicate_nat]
    omega
  | appendMapSdsSds => exact absurd rfl happend

/-! ## Only what needs no quotes is loaded again -/

/-- There is another value that the rule could have before the line is loaded. -/
theorem ConfigKind.exists_fresh_not_same {kind : ConfigKind} {value : kind.Value}
    (hwf : kind.Wf value) : ∃ old, kind.Fresh old ∧ ¬ kind.Same old value := by
  have hother : ∀ v : ℤ, ∃ w : ℤ, w ≠ v := fun v ↦ ⟨v + 1, by omega⟩
  have hnot : ∀ b : Bool, ∃ c : Bool, c ≠ b := by decide
  cases kind with
  | numeric lo hi =>
    obtain ⟨w, hw⟩ := hother value
    exact ⟨w, trivial, hw⟩
  | sds => exact ⟨none, trivial, Ne.symm hwf⟩
  | enum enumValue =>
    obtain ⟨w, hw⟩ := hother value
    exact ⟨w, trivial, hw⟩
  | bool =>
    obtain ⟨c, hc⟩ := hnot value
    exact ⟨c, trivial, hc⟩
  | sdsArray => exact ⟨none, trivial, Ne.symm hwf⟩
  | mapSdsSds =>
    obtain ⟨l, rfl, -⟩ := hwf
    exact ⟨none, trivial, by rintro ⟨⟩⟩
  | appendMapSdsSds =>
    obtain ⟨l, rfl, -⟩ := hwf
    exact ⟨none, rfl, by rintro ⟨⟩⟩

/-- A line of the text has all of its room. -/
theorem printable_of_line {kind : ConfigKind} (henum : ∀ enumValue, kind ≠ .enum enumValue)
    (happend : kind ≠ .appendMapSdsSds) {new value : kind.Value} {key : List UInt8}
    {line : List UInt8} (hline : line ∈ textLines (cString key ++ (kind.printed E value).flatMap (32 :: ·)))
    {name : List UInt8} {args : List (List UInt8)}
    (hargs : LineArgs line (name :: args)) (hname : strEq name key = true)
    (hload : kind.loadValue args = .ok new) (hsame : kind.Same new value) :
    IsRuleName (cString key) ∧ kind.Printable value := by
  obtain ⟨text, htext⟩ : ∃ text, text =
      cString key ++ (kind.printed E value).flatMap (32 :: ·) := ⟨_, rfl⟩
  rw [← htext] at hline
  obtain ⟨hroom, hprintable⟩ := ConfigKind.argsRoom_printed (E := E) henum happend hload hsame
  obtain ⟨hle, hplain⟩ := argsRoom_sdsArgs hargs.args_eq.1
  rw [strEq, decide_eq_true_iff] at hname
  have hkey := length_cString_le name
  rw [hname] at hkey
  have hlength : text.length = (cString key).length + argsRoom (kind.printed E value) := by
    rw [htext, List.length_append, length_flatMap_space]
  have hne : text ≠ [] := by
    rintro rfl
    exact absurd hline List.not_mem_nil
  rw [textLines, if_neg hne] at hline
  have hsub := sublist_of_mem_splitChar hline
  rw [List.nil_append] at hsub
  have hline_le := hsub.length_le
  have htrim_le := length_sdsTrim_le line blanks
  rw [argsRoom_cons] at hle hplain
  have hplain' := hplain (by omega)
  rw [List.forall_mem_cons] at hplain'
  have hnamekey : name = cString key := by rw [← hname, cString_of_isPlain hplain'.1]
  have hwhole : line = text := hsub.eq_of_length (by omega)
  have htrim : sdsTrim line blanks = text := by
    rw [sdsTrim_eq_self_of_length (by omega), hwhole]
  have hcomment := hargs.not_comment
  have hinclude := hargs.not_include
  rw [hnamekey] at hplain'
  rw [htrim, htext] at hcomment
  refine ⟨⟨hplain'.1, ?_, by rwa [← hnamekey]⟩, hprintable hplain'.2⟩
  cases hk : cString key with
  | nil =>
    have := hplain'.1.head
    rw [hk] at this
    cases this
  | cons c cs =>
    rw [hk] at hcomment
    exact hcomment

/-- The line that gives an enumerator: the name of the rule is not quoted, since there is not enough room
for it, and then what is loaded is the string that was printed. -/
theorem enum_of_line {enumValue : List (List UInt8 × ℤ)} {v : ℤ} {n key : List UInt8} (hn : IsPlain n)
    {line : List UInt8} (hline : line ∈ textLines (cString key ++ 32 :: n))
    {name : List UInt8} {args : List (List UInt8)}
    (hargs : LineArgs line (name :: args)) (hname : strEq name key = true)
    (hload : loadEnumValue enumValue args = .ok v) :
    IsRuleName (cString key) ∧ loadEnumValue enumValue [n] = .ok v := by
  obtain ⟨x, rfl, -⟩ := loadSingle_eq_ok hload
  obtain ⟨hle, -⟩ := argsRoom_sdsArgs hargs.args_eq.1
  rw [strEq, decide_eq_true_iff] at hname
  have hkey := length_cString_le name
  have htrim_le := length_sdsTrim_le line blanks
  rw [hname] at hkey
  rw [argsRoom_cons, argsRoom_cons, argsRoom_nil] at hle
  have htail : (10 : UInt8) ∉ 32 :: n := by
    rw [List.mem_cons, not_or]
    exact ⟨by decide, fun h ↦ hn.not_special 10 h (by decide)⟩
  obtain ⟨front, last, hfront, hboth, hshort⟩ := splitChar_append htail (cString key) []
  rw [textLines, if_neg (by simp), hboth] at hline
  rcases List.mem_append.mp hline with hline | hline
  · -- a line in front of the last one is too short
    have := hshort line hline
    rw [List.length_nil] at this
    omega
  · obtain rfl := List.mem_singleton.mp hline
    have hlast : last ∈ splitChar 10 [] (cString key) := by
      rw [hfront]
      exact List.mem_append_right _ (List.mem_singleton_self last)
    have hsub := sublist_of_mem_splitChar hlast
    rw [List.nil_append] at hsub
    have hlast_le := hsub.length_le
    have hsplit := hargs.args_eq.1
    rcases sdsTrim_append hn last with htrim | ⟨s, hs, htrim⟩
    · -- the string alone has no argument
      rw [htrim, sdsArgs_of_isPlain hn] at hsplit
      cases hsplit
    · have hs_le := hs.length_le
      have hnul : 0 ∉ s := fun hmem ↦ zero_notMem_cString key (hsub.subset (hs.subset hmem))
      rw [htrim, sdsArgs_append hn hnul, Option.map_eq_some_iff] at hsplit
      obtain ⟨ts, hts, happend⟩ := hsplit
      obtain ⟨rfl, rfl⟩ : ts = [name] ∧ n = x := by
        have := List.append_inj' (happend.trans (List.singleton_append (x := name)).symm) rfl
        exact ⟨this.1, by simpa using this.2⟩
      obtain ⟨hroom, hplain⟩ := argsRoom_sdsArgs hts
      rw [argsRoom_cons, argsRoom_nil] at hroom hplain
      have hplain' := hplain (by omega) name List.mem_cons_self
      have hnamekey : name = cString key := by rw [← hname, cString_of_isPlain hplain']
      have hskey : s = cString key := by
        rw [hs.eq_of_length (by omega), hsub.eq_of_length (by omega)]
      rw [hnamekey] at hplain'
      have hcomment := hargs.not_comment
      have hinclude := hargs.not_include
      rw [htrim, hskey] at hcomment
      refine ⟨⟨hplain', ?_, by rwa [← hnamekey]⟩, hload⟩
      cases hk : cString key with
      | nil =>
        have := hplain'.head
        rw [hk] at this
        cases this
      | cons c cs =>
        rw [hk] at hcomment
        exact hcomment

theorem printable_of_line_of_kind {kind : ConfigKind} {new value : kind.Value} (hwf : kind.Wf value)
    (happend : kind ≠ .appendMapSdsSds)
    (hnames : ∀ enumValue, kind = .enum enumValue → ∀ e ∈ enumValue, IsPlain (cString e.1))
    {key : List UInt8} {line : List UInt8}
    (hline : line ∈ textLines (cString key ++ (kind.printed E value).flatMap (32 :: ·)))
    {name : List UInt8} {args : List (List UInt8)}
    (hargs : LineArgs line (name :: args)) (hname : strEq name key = true)
    (hload : kind.loadValue args = .ok new) (hsame : kind.Same new value) :
    IsRuleName (cString key) ∧ kind.Printable value := by
  by_cases henum : ∃ enumValue, kind = .enum enumValue
  · obtain ⟨enumValue, rfl⟩ := henum
    obtain ⟨e, hfind⟩ := exists_find_enum hwf
    have hplain := hnames enumValue rfl e (List.mem_of_find?_eq_some hfind)
    have hprinted : ConfigKind.printed E (.enum enumValue) value = [cString e.1] :=
      printed_enum_eq hfind
    rw [hprinted, List.flatMap_singleton] at hline
    obtain rfl : new = value := hsame
    obtain ⟨hkey, hloads⟩ := enum_of_line hplain hline hargs hname hload
    refine ⟨hkey, fun e' he' ↦ ?_⟩
    obtain rfl : e = e' := Option.some.inj (hfind.symm.trans he')
    exact ⟨hplain, hloads⟩
  · exact printable_of_line (fun enumValue h ↦ henum ⟨enumValue, h⟩) happend hline hargs hname
      hload hsame

/-- **What is printed for a rule can be loaded again exactly when neither its name nor its value needs
quotes.** Then the line is loaded without an error, and it gives the rule the value back, whatever value it
has by then. There must not be more strings than can be counted, the name must not be taken for a comment or
an `include`, and the name printed for an enumerator must stand for it. In the other direction no file is
there to be included, since a file could hold the value. -/
theorem config_round_trip_iff {E : ConfigEnv} (depth : ℕ) {m : ConfigManager} {key line : List UInt8}
    {rule : ConfigRule} (hrule : configGetRule m key = some rule)
    (hheld : rule.kind.Held E rule.value) (hline : configRuleToSds E m key = .ok (some line)) :
    (IsRuleName (cString key) ∧ rule.kind.Printable rule.value ∧
        (rule.kind.printed E rule.value).length + 1 < 2 ^ 31 →
      Reloads E (depth + 1) m key rule line) ∧
    ((∀ path, E.files path = none) → rule.kind ≠ .appendMapSdsSds →
      (∀ enumValue, rule.kind = .enum enumValue → ∀ e ∈ enumValue, IsPlain (cString e.1)) →
      Reloads E (depth + 1) m key rule line →
      IsRuleName (cString key) ∧ rule.kind.Printable rule.value ∧
        (rule.kind.printed E rule.value).length + 1 < 2 ^ 31) := by
  have hwf := hheld.wf
  have hprint : rule.kind.toSds E key rule.value = .ok (some line) := by
    rw [configRuleToSds, hrule] at hline
    simp only at hline
    split_ifs at hline
    · cases hline
    · exact hline
  obtain rfl := ConfigKind.toSds_eq hwf hprint
  refine ⟨fun h ↦ reloads_of_printable depth hrule hwf h.1 h.2.1 h.2.2, ?_⟩
  intro hfiles happend hnames hreload
  -- start from another value, so that the line must have given the value
  obtain ⟨old, hfresh, hnot⟩ := ConfigKind.exists_fresh_not_same hwf
  obtain ⟨m', new, hload, hget, hsame⟩ := hreload old hfresh
  have hne : new ≠ old := by
    rintro rfl
    exact hnot hsame
  obtain ⟨l, hl, name, args, hargs, hname, hvalue⟩ := exists_line_of_load hfiles
    (ConfigKind.setValue_of_ne happend) (configGetRule_set_self hrule _) hload hget hne
  obtain ⟨hkey, hprintable⟩ := printable_of_line_of_kind hwf happend hnames hl hargs hname hvalue hsame
  have hlength := ConfigKind.length_printed_le (E := E) happend hvalue hsame
  have hcount := hargs.args_eq.2
  rw [List.length_cons] at hcount
  exact ⟨hkey, hprintable, by omega⟩

/-- A rule `k` for an array, and what it holds after `k a b`. -/
def sdsArrayRule : ConfigRule where
  kind := .sdsArray
  disableWrite := false
  disableSave := false
  value := some [[97], [98]]
  checkValue := none
  defaultValue := none

theorem config_round_trip_iff_test : ∃ m' new,
    configLoadString configEnvNoFiles 1
      ((⟨[([107], sdsArrayRule)]⟩ : ConfigManager).set [107] { sdsArrayRule with value := none })
      [107, 32, 97, 32, 98] = .ok (m', 1) ∧
    configGetRule m' [107] = some { sdsArrayRule with value := new } ∧
    ConfigKind.Same .sdsArray new (some [[97], [98]]) := by
  have hload : ConfigKind.sdsArray.loadValue [[97], [98]] = .ok sdsArrayRule.value := rfl
  have hfresh : ConfigKind.sdsArray.Fresh sdsArrayRule.value := trivial
  have hheld : sdsArrayRule.kind.Held configEnvNoFiles sdsArrayRule.value := .first hfresh hload
  have hrule : configGetRule ⟨[([107], sdsArrayRule)]⟩ [107] = some sdsArrayRule := rfl
  have hline : configRuleToSds configEnvNoFiles ⟨[([107], sdsArrayRule)]⟩ [107] =
      .ok (some [107, 32, 97, 32, 98]) := rfl
  have hplain : ∀ x ∈ [[97], [98]], IsPlain x := by decide
  exact (config_round_trip_iff 0 hrule hheld hline).1 ⟨⟨by decide, by decide, by decide⟩, hplain, by decide⟩
    (none : Option (List (List UInt8))) trivial

/-- A rule `k` for a string. -/
def sdsRule : ConfigRule where
  kind := .sds
  disableWrite := false
  disableSave := false
  value := none
  checkValue := none
  defaultValue := none

/-- `k "a b"` is printed as `k a b`, which is not loaded. -/
theorem config_round_trip_fails : ∃ m line m',
    configLoadString configEnvNoFiles 1 ⟨[([107], sdsRule)]⟩ [107, 32, 34, 97, 32, 98, 34] =
      .ok (m, 1) ∧
    configRuleToSds configEnvNoFiles m [107] = .ok (some line) ∧
    configLoadString configEnvNoFiles 1 m line = .ok (m', 0) :=
  ⟨_, _, _, rfl, rfl, rfl⟩

end LatteC
