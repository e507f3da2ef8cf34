import LatteC.Config.RoundTrip
import LatteC.Foundation.PairMap

/-!
# Setting a value

`config_set_value` stores a value that the rule accepts unless it is the one that is there, and whether it is
is decided by a comparison for each kind of rule. The comparison of numbers returns the difference of two
numbers of 64 bits as an `int`, so it takes two numbers for equal that differ by a multiple of 2³². All other
comparisons are exact: strings and arrays are compared byte by byte, enumerators are numbers of 32 bits, and
maps of the same size are compared entry by entry.
-/

namespace LatteC

open PairMap

/-! ## Values -/

/-- A map with C strings for its keys. -/
def configMap (map : List (List UInt8 × List UInt8)) : Finmap fun _ : List UInt8 ↦ List UInt8 :=
  ofPairs (map.map fun e ↦ (cString e.1, e.2))

/-- No two keys are equal as C strings. -/
def KeysDistinct (map : List (List UInt8 × List UInt8)) : Prop := (map.map fun e ↦ cString e.1).Nodup

/-- What the variable of a rule holds, if it is not `NULL`: an enumerator is an `int`, and a map has no key
twice. -/
def ConfigKind.NonNull : (kind : ConfigKind) → kind.Value → Prop
  | .numeric _ _ => fun _ ↦ True
  | .sds => fun (s : Option (List UInt8)) ↦ s ≠ none
  | .enum _ => fun (v : ℤ) ↦ -2 ^ 31 ≤ v ∧ v < 2 ^ 31
  | .bool => fun _ ↦ True
  | .sdsArray => fun (array : Option (List (List UInt8))) ↦ array ≠ none
  | .mapSdsSds => fun (map : Option (List (List UInt8 × List UInt8))) ↦ ∃ l, map = some l ∧ KeysDistinct l
  | .appendMapSdsSds => fun (map : Option (List (List UInt8 × List UInt8))) ↦
    ∃ l, map = some l ∧ KeysDistinct l

/-- The enumerators of the kind are of type `int`. -/
def ConfigKind.IntEnum : ConfigKind → Prop
  | .enum enumValue => ∀ e ∈ enumValue, -2 ^ 31 ≤ e.2 ∧ e.2 < 2 ^ 31
  | _ => True

/-- Two values are equal. Maps are, if they have the same keys with the same values. -/
def ConfigKind.Equal : (kind : ConfigKind) → kind.Value → kind.Value → Prop
  | .mapSdsSds => fun (a b : Option (List (List UInt8 × List UInt8))) ↦ a.map configMap = b.map configMap
  | .appendMapSdsSds => fun (a b : Option (List (List UInt8 × List UInt8))) ↦
    a.map configMap = b.map configMap
  | _ => fun a b ↦ a = b

/-- Two different numbers of which the difference has no low bits. -/
def ConfigKind.Confused : (kind : ConfigKind) → kind.Value → kind.Value → Prop
  | .numeric _ _ => fun (a b : ℤ) ↦ a ≠ b ∧ (2 ^ 32 : ℤ) ∣ a - b
  | _ => fun _ _ ↦ False

/-! ## Maps -/

theorem mapFetchValue_eq (map : List (List UInt8 × List UInt8)) (key : List UInt8) :
    mapFetchValue map key = (configMap map).lookup (cString key) := by
  induction map with
  | nil => rfl
  | cons e map ih =>
    have hcons : (configMap (e :: map)).lookup (cString key) =
        if cString e.1 = cString key then some e.2 else (configMap map).lookup (cString key) :=
      lookup_ofPairs_cons _ _ _
    rw [hcons, ← ih, mapFetchValue, List.find?_cons, strEq]
    split_ifs with hkey
    · rw [decide_eq_true hkey]
      rfl
    · rw [decide_eq_false hkey]
      rfl

theorem mapDiffers_eq_false_iff (a b : List (List UInt8 × List UInt8)) :
    mapDiffers a b = false ↔ ∀ e ∈ a, (configMap b).lookup (cString e.1) = some e.2 := by
  rw [mapDiffers, List.any_eq_false]
  refine forall₂_congr fun e _ ↦ ?_
  rw [← mapFetchValue_eq]
  cases mapFetchValue b e.1 with
  | none => simp
  | some value => rw [Option.some.injEq, decide_eq_true_iff, not_not, sdsCmp_eq_zero_iff, eq_comm]

/-- **Maps** are compared entry by entry. -/
theorem configMap_eq_iff {a b : List (List UInt8 × List UInt8)} (ha : KeysDistinct a) (hb : KeysDistinct b) :
    configMap a = configMap b ↔ a.length = b.length ∧ mapDiffers a b = false := by
  have hfst : ∀ l : List (List UInt8 × List UInt8),
      (l.map fun e ↦ (cString e.1, e.2)).map Prod.fst = l.map fun e ↦ cString e.1 :=
    fun l ↦ List.map_map
  rw [configMap, configMap, ofPairs_eq_iff (by rw [hfst]; exact ha) (by rw [hfst]; exact hb), List.length_map,
    List.length_map, mapDiffers_eq_false_iff, List.forall_mem_map]
  rfl

/-! ## Comparing -/

/-- The difference of two numbers is returned in 32 bits. -/
theorem cmpInt64Value_eq_zero_iff (a b : ℤ) : cmpInt64Value a b = 0 ↔ (2 ^ 32 : ℤ) ∣ a - b := by
  rw [cmpInt64Value, ← Int.dvd_iff_bmod_eq_zero]
  rfl

/-- Two numbers are taken for equal if they are, or if their difference has no low bits. -/
theorem cmpInt64Value_eq_zero_iff_or (a b : ℤ) :
    cmpInt64Value a b = 0 ↔ a = b ∨ a ≠ b ∧ (2 ^ 32 : ℤ) ∣ a - b := by
  rw [cmpInt64Value_eq_zero_iff]
  constructor
  · exact fun h ↦ or_iff_not_imp_left.mpr fun hne ↦ ⟨hne, h⟩
  · rintro (rfl | h)
    · exact ⟨0, by rw [sub_self, mul_zero]⟩
    · exact h.2

theorem cmpBoolValue_eq_zero_iff (a b : Bool) : cmpBoolValue a b = 0 ↔ a = b := by
  rw [cmpBoolValue]
  split_ifs with h
  · exact iff_of_true rfl h
  · exact iff_of_false Int.one_ne_zero h

theorem eq_iff_zip {α : Type} (a b : List α) :
    a = b ↔ a.length = b.length ∧ ∀ p ∈ a.zip b, p.1 = p.2 := by
  induction a generalizing b with
  | nil => exact ⟨fun h ↦ by rw [← h]; simp, fun h ↦ (List.length_eq_zero_iff.mp h.1.symm).symm⟩
  | cons x a ih =>
    cases b with
    | nil => exact iff_of_false (List.cons_ne_nil x a) fun h ↦ Nat.succ_ne_zero _ h.1
    | cons y b =>
      rw [List.cons.injEq, ih b, List.zip_cons_cons, List.forall_mem_cons, List.length_cons, List.length_cons,
        Nat.add_right_cancel_iff]
      exact and_left_comm

/-- **Arrays** are compared string by string. -/
theorem cmpSdsArrayValue_eq_zero_iff (a b : List (List UInt8)) :
    cmpSdsArrayValue (some a) (some b) = some 0 ↔ a = b := by
  have hany : ((a.zip b).any fun p ↦ sdsCmp p.1 p.2 ≠ 0) = true ↔ ¬∀ p ∈ a.zip b, p.1 = p.2 := by
    rw [List.any_eq_true, not_forall]
    simp only [decide_eq_true_iff, ne_eq, sdsCmp_eq_zero_iff, Classical.not_imp]
  rw [cmpSdsArrayValue, Option.some.injEq, eq_iff_zip a b]
  split_ifs with hlength hdiffers
  · exact iff_of_false Int.one_ne_zero fun h ↦ hlength h.1
  · exact iff_of_false Int.one_ne_zero fun h ↦ hany.mp hdiffers h.2
  · exact iff_of_true rfl ⟨not_not.mp hlength, not_not.mp (hany.not.mp hdiffers)⟩

theorem cmpMapSdsSdsValue_eq_zero_iff {a b : List (List UInt8 × List UInt8)} (ha : KeysDistinct a)
    (hb : KeysDistinct b) : cmpMapSdsSdsValue (some a) (some b) = some 0 ↔ configMap a = configMap b := by
  rw [cmpMapSdsSdsValue, Option.some.injEq, configMap_eq_iff ha hb]
  split_ifs with hlength hdiffers
  · exact iff_of_false Int.one_ne_zero fun h ↦ hlength h.1
  · exact iff_of_false Int.one_ne_zero fun h ↦ Bool.false_ne_true (h.2.symm.trans hdiffers)
  · exact iff_of_true rfl ⟨not_not.mp hlength, Bool.eq_false_iff.mpr hdiffers⟩

/-- Numbers of 32 bits differ by less than 2³². -/
theorem eq_of_dvd_of_int {a b : ℤ} (ha : -2 ^ 31 ≤ a ∧ a < 2 ^ 31) (hb : -2 ^ 31 ≤ b ∧ b < 2 ^ 31) :
    (2 ^ 32 : ℤ) ∣ a - b ↔ a = b := by
  omega

/-- **Comparing** the value of a rule with a new one. -/
theorem cmpValue_eq_zero_iff {kind : ConfigKind} (hkind : kind ≠ .appendMapSdsSds) {old new : kind.Value}
    (hold : kind.NonNull old) (hnew : kind.NonNull new) :
    ∃ cmp, kind.cmpValue old new = some cmp ∧
      (kind.cmpValue old new = some 0 ↔ kind.Equal old new ∨ kind.Confused old new) := by
  cases kind with
  | numeric lowerBound upperBound =>
    exact ⟨_, rfl, Option.some_inj.trans (cmpInt64Value_eq_zero_iff_or old new)⟩
  | sds =>
    obtain ⟨a, rfl⟩ := Option.ne_none_iff_exists'.mp hold
    obtain ⟨b, rfl⟩ := Option.ne_none_iff_exists'.mp hnew
    refine ⟨_, rfl, (Option.some_inj.trans (sdsCmp_eq_zero_iff a b)).trans ?_⟩
    exact Option.some_inj.symm.trans (or_iff_left id).symm
  | enum enumValue =>
    refine ⟨_, rfl, (Option.some_inj.trans (cmpInt64Value_eq_zero_iff old new)).trans ?_⟩
    exact (eq_of_dvd_of_int hold hnew).trans (or_iff_left id).symm
  | bool =>
    refine ⟨_, rfl, (Option.some_inj.trans (cmpBoolValue_eq_zero_iff old new)).trans ?_⟩
    exact (or_iff_left id).symm
  | sdsArray =>
    obtain ⟨a, rfl⟩ := Option.ne_none_iff_exists'.mp hold
    obtain ⟨b, rfl⟩ := Option.ne_none_iff_exists'.mp hnew
    refine ⟨_, rfl, (cmpSdsArrayValue_eq_zero_iff a b).trans ?_⟩
    exact Option.some_inj.symm.trans (or_iff_left id).symm
  | mapSdsSds =>
    obtain ⟨a, rfl, ha⟩ := hold
    obtain ⟨b, rfl, hb⟩ := hnew
    refine ⟨_, rfl, (cmpMapSdsSdsValue_eq_zero_iff ha hb).trans ?_⟩
    exact Option.some_inj.symm.trans (or_iff_left id).symm
  | appendMapSdsSds => exact absurd rfl hkind

/-! ## Storing -/

/-- What a loader accepts is a value that a variable can hold. -/
theorem nonNull_of_loadValue {kind : ConfigKind} (henum : kind.IntEnum) {args : List (List UInt8)}
    {value : kind.Value} (h : kind.loadValue args = .ok value) : kind.NonNull value := by
  have hmap : ∀ {map : Option (List (List UInt8 × List UInt8))}, loadMapSdsSdsValue args = .ok map →
      ∃ l, map = some l ∧ KeysDistinct l := by
    intro map hload
    obtain ⟨l, rfl, hnodup, hnul⟩ := wfMap_loadMapSdsSdsValue hload
    refine ⟨l, rfl, ?_⟩
    have hkeys : (l.map fun e ↦ cString e.1) = l.map Prod.fst :=
      List.map_congr_left fun e he ↦ cString_eq_self (hnul e he).1
    rw [KeysDistinct, hkeys]
    exact hnodup
  cases kind with
  | numeric lowerBound upperBound => exact trivial
  | sds =>
    obtain ⟨s, -, hs⟩ := loadSingle_eq_ok h
    cases hs
    exact Option.some_ne_none s
  | enum enumValue =>
    obtain ⟨e, he, rfl⟩ := loadEnumValue_eq_ok h
    exact henum e he
  | bool => exact trivial
  | sdsArray =>
    cases h
    exact Option.some_ne_none _
  | mapSdsSds => exact hmap h
  | appendMapSdsSds => exact hmap h

/-- After `config_set_value` the rule has the value, and `1` is returned if it is not what it was, `0` if it
is. -/
def Stores (E : ConfigEnv) (m : ConfigManager) (name : List UInt8) (args : List (List UInt8))
    (rule : ConfigRule) (value : rule.kind.Value) : Prop :=
  ∃ m' r new, configSetValue E m (name :: args) = .ok (m', r, none) ∧
    configGetRule m' name = some { rule with value := new } ∧ rule.kind.Equal new value ∧
      (rule.kind.Equal rule.value value → r = 0) ∧ (¬rule.kind.Equal rule.value value → r = 1)

/-- The rule of a name can be written, without a check, and holds a value. -/
structure IsSettable (m : ConfigManager) (name : List UInt8) (rule : ConfigRule) : Prop where
  get : configGetRule m name = some rule
  write : rule.disableWrite = false
  check : rule.checkValue = none
  kind : rule.kind ≠ .appendMapSdsSds
  int : rule.kind.IntEnum
  value : rule.kind.NonNull rule.value

theorem not_equal_of_confused {kind : ConfigKind} {old new : kind.Value} (h : kind.Confused old new) :
    ¬kind.Equal old new := by
  cases kind with
  | numeric => exact h.1
  | sds | enum | bool | sdsArray | mapSdsSds | appendMapSdsSds => exact h.elim

theorem ConfigKind.equal_refl (kind : ConfigKind) (value : kind.Value) : kind.Equal value value := by
  cases kind <;> exact rfl

theorem setValue_eq (E : ConfigEnv) {kind : ConfigKind} (h : kind ≠ .appendMapSdsSds) (old new : kind.Value) :
    kind.setValue E old new = new := by
  cases kind with
  | appendMapSdsSds => exact absurd rfl h
  | numeric | sds | enum | bool | sdsArray | mapSdsSds => rfl

section Settable

variable {E : ConfigEnv} {m : ConfigManager} {name : List UInt8} {args : List (List UInt8)} {rule : ConfigRule}

theorem configSetValue_of_error (h : IsSettable m name rule) {err : String}
    (hvalue : rule.kind.loadValue args = .error err) :
    configSetValue E m (name :: args) = .ok (m, 0, some err) := by
  have hwrite : ¬rule.disableWrite = true := Bool.eq_false_iff.mp h.write
  simp only [configSetValue, h.get, if_neg hwrite, hvalue]

theorem configSetValue_of_ok (h : IsSettable m name rule) {value : rule.kind.Value}
    (hvalue : rule.kind.loadValue args = .ok value) {cmp : ℤ}
    (hcmp : rule.kind.cmpValue rule.value value = some cmp) :
    configSetValue E m (name :: args) =
      if cmp = 0 then .ok (m, 0, none) else .ok (m.set name { rule with value := value }, 1, none) := by
  have hwrite : ¬rule.disableWrite = true := Bool.eq_false_iff.mp h.write
  have hcheck : ¬(rule.checkValue.map fun check ↦ check rule.value value) = some false := by
    rw [h.check]
    exact Option.some_ne_none false ∘ Eq.symm
  simp only [configSetValue, h.get, if_neg hwrite, hvalue, if_neg hcheck, hcmp, setValue_eq E h.kind]

/-- **One value** that is accepted is stored, if and only if it is not confused with the one that is there. -/
theorem stores_iff (h : IsSettable m name rule) {value : rule.kind.Value}
    (hvalue : rule.kind.loadValue args = .ok value) :
    Stores E m name args rule value ↔ ¬rule.kind.Confused rule.value value := by
  obtain ⟨cmp, hcmp, hzero⟩ := cmpValue_eq_zero_iff h.kind h.value (nonNull_of_loadValue h.int hvalue)
  have hset := @configSetValue_of_ok E _ _ _ _ h _ hvalue _ hcmp
  rw [hcmp, Option.some.injEq] at hzero
  by_cases hcmp0 : cmp = 0
  · -- nothing is stored
    rw [if_pos hcmp0] at hset
    constructor
    · rintro ⟨m', r, new, hrun, -, -, -, hdiffers⟩ hconfused
      rw [hset] at hrun
      cases hrun
      exact absurd (hdiffers (not_equal_of_confused hconfused)) (by decide)
    · intro hconfused
      have hequal := (hzero.mp hcmp0).resolve_right hconfused
      exact ⟨m, 0, rule.value, hset, h.get, hequal, fun _ ↦ rfl, fun hdiffers ↦ absurd hequal hdiffers⟩
  · rw [if_neg hcmp0] at hset
    refine iff_of_true ⟨_, 1, value, hset, configGetRule_set_self h.get _, rule.kind.equal_refl value, ?_, ?_⟩
      fun hconfused ↦ hcmp0 (hzero.mpr (Or.inr hconfused))
    · exact fun hequal ↦ absurd (hzero.mpr (Or.inl hequal)) hcmp0
    · exact fun _ ↦ rfl

end Settable

/-- **Setting a value.** A value that the loader accepts is stored, if and only if it is not a number that
differs from the one that is there by a multiple of 2³²; and a value that it does not accept changes nothing. -/
theorem configSetValue_stores {E : ConfigEnv} {m : ConfigManager} {name : List UInt8} {rule : ConfigRule}
    (h : IsSettable m name rule) :
    (∀ args value, rule.kind.loadValue args = .ok value →
      (Stores E m name args rule value ↔ ¬rule.kind.Confused rule.value value)) ∧
    ∀ args err, rule.kind.loadValue args = .error err →
      configSetValue E m (name :: args) = .ok (m, 0, some err) :=
  ⟨fun _ _ hvalue ↦ stores_iff h hvalue, fun _ _ hvalue ↦ configSetValue_of_error h hvalue⟩

/-- A rule for any number. -/
def anyNumberRule (value : ℤ) : ConfigRule :=
  configRuleNewNumericRule false false value (-2 ^ 63) (2 ^ 63 - 1) none 0

theorem isSettable_anyNumberRule (value : ℤ) :
    IsSettable ⟨[([97], anyNumberRule value)]⟩ [97] (anyNumberRule value) :=
  ⟨rfl, rfl, rfl, (fun h ↦ by cases h), trivial, trivial⟩

/-- From 5 to 0. -/
theorem configSetValue_stores_zero :
    Stores configEnvNoFiles ⟨[([97], anyNumberRule 5)]⟩ [97] [[48]] (anyNumberRule 5) (0 : ℤ) := by
  refine ((configSetValue_stores (isSettable_anyNumberRule 5)).1 [[48]] (0 : ℤ) rfl).mpr ?_
  rintro ⟨-, k, hk⟩
  have hk' : (5 : ℤ) - 0 = 2 ^ 32 * k := hk
  omega

/-- From 2³² to 0. -/
theorem not_stores_low_bits :
    (anyNumberRule (2 ^ 32)).kind.loadValue [[48]] = .ok (0 : ℤ) ∧
      ¬Stores configEnvNoFiles ⟨[([97], anyNumberRule (2 ^ 32))]⟩ [97] [[48]]
        (anyNumberRule (2 ^ 32)) (0 : ℤ) := by
  refine ⟨rfl, ?_⟩
  rintro ⟨m', r, new, hrun, -, -, -, hdiffers⟩
  have hzero : configSetValue configEnvNoFiles ⟨[([97], anyNumberRule (2 ^ 32))]⟩ [[97], [48]] =
      .ok (⟨[([97], anyNumberRule (2 ^ 32))]⟩, 0, none) := rfl
  rw [hzero] at hrun
  cases hrun
  have hne : ¬((2 : ℤ) ^ 32 = 0) := by decide
  exact absurd (hdiffers hne) (by decide)

end LatteC
