import LatteC.Config.Assign

/-!
# Saving

`config_save_file` of `src/config/config.c` appends what `config_diff_file` lists to the file. For
rules whose value is printed as one word, the file then gives every savable rule its current value:
the appended lines stand behind everything else, so they are the last assignments.

## The argument

The file is a list of assignments, and appending lines appends assignments. That the included files do
not change needs an argument too: none of them is the file itself, since a file that includes itself,
directly or not, does not load.
-/

namespace LatteC

/-- The file after something was appended to it. -/
def ConfigEnv.append (E : ConfigEnv) (path config : List UInt8) : ConfigEnv :=
  { E with files := fun p ↦ if p = path then (E.files p).map (· ++ config) else E.files p }

/-- `config_save_file`, with the files after the call. The file can be written. -/
def configSaveFile (E : ConfigEnv) (depth : ℕ) (m : ConfigManager) (path : List UInt8) :
    Except ConfigHalt (ConfigEnv × ℤ) := do
  match ← configDiffFile E depth m path with
  | none => .ok (E, 1)
  | some config => .ok (E.append path config, 1)

/-! ## Values that are one word -/

/-- The value of a rule that is numeric, an enumeration or a truth value. The enumerators have names
that need no quotes, and the value is one of them. -/
def ConfigKind.Scalar : (kind : ConfigKind) → kind.Value → Prop
  | .numeric _ _ => fun (v : ℤ) ↦ IsInt64 v
  | .enum enumValue => fun (v : ℤ) ↦ (∃ e ∈ enumValue, e.2 = v) ∧ ∀ e ∈ enumValue, IsPlain e.1
  | .bool => fun _ ↦ True
  | .sds | .sdsArray | .mapSdsSds | .appendMapSdsSds => fun _ ↦ False

/-- The names of the value are not names of another value. -/
def ConfigKind.Named : (kind : ConfigKind) → kind.Value → Prop
  | .enum enumValue => fun (v : ℤ) ↦
    ∀ e ∈ enumValue, e.2 = v → ∀ e' ∈ enumValue, strEq e.1 e'.1 = true → e'.2 = v
  | .numeric _ _ | .bool | .sds | .sdsArray | .mapSdsSds | .appendMapSdsSds => fun _ ↦ True

/-- The word that is printed for a value. -/
theorem ConfigKind.Scalar.word {kind : ConfigKind} {value : kind.Value} (h : kind.Scalar value) :
    ∃ s, IsPlain s ∧ (kind.Named value → kind.loadValue [s] = .ok value) ∧
      ∀ (E : ConfigEnv) {key}, IsRuleName key → kind.toSds E key value = .ok (some (key ++ 32 :: s)) := by
  cases kind with
  | sds | sdsArray | mapSdsSds | appendMapSdsSds => exact h.elim
  | numeric lo hi =>
    have hvalue : IsInt64 value := h
    refine ⟨Decimal.numeral value, isPlain_numeral value, fun _ ↦ ?_, fun E key hname ↦ ?_⟩
    · have hll : sds2ll (Decimal.numeral value) = some value := sds2ll_numeral hvalue
      change loadInt64Value [Decimal.numeral value] = .ok value
      rw [loadInt64Value, loadSingle, hll]
    · rw [ConfigKind.toSds, cString_of_isPlain hname.plain]
      exact toSdsInt64Value_eq hvalue key
  | enum enumValue =>
    change ℤ at value
    obtain ⟨hmem, hplain⟩ := h
    obtain ⟨e, hfind⟩ := exists_find_enum hmem
    have he : e ∈ enumValue := List.mem_of_find?_eq_some hfind
    have hvalue : e.2 = value := of_decide_eq_true (List.find?_some hfind :)
    refine ⟨e.1, hplain e he, fun hnamed ↦ ?_, fun E key hname ↦ ?_⟩
    · change loadEnumValue enumValue [e.1] = .ok value
      have hsome : (enumValue.find? fun d ↦ strEq e.1 d.1).isSome = true :=
        List.find?_isSome.mpr ⟨e, he, strEq_self e.1⟩
      obtain ⟨d, hd⟩ := Option.isSome_iff_exists.mp hsome
      have hdvalue : d.2 = value :=
        hnamed e he hvalue d (List.mem_of_find?_eq_some hd) (List.find?_some hd :)
      rw [loadEnumValue, loadSingle, hd]
      exact congrArg Except.ok hdvalue
    · change toSdsEnumValue enumValue (cString key) value = _
      rw [cString_of_isPlain hname.plain, toSdsEnumValue]
      simp only [hfind, cString_of_isPlain (hplain e he)]
  | bool =>
    change Bool at value
    refine ⟨if value then yesBytes else noBytes, ?_, fun _ ↦ ?_, fun E key hname ↦ ?_⟩
    · cases value <;> exact ⟨by decide +kernel, by decide +kernel⟩
    · cases value <;> rfl
    · change Except.ok (some (toSdsBoolValue (cString key) value)) = _
      rw [cString_of_isPlain hname.plain, toSdsBoolValue]

section Append

variable {E : ConfigEnv} {m : ConfigManager}

/-- An empty line may stand in front. -/
theorem Gives.splitChar {text : List UInt8} {as : List Assignment} (h : Gives E m (textLines text) as) :
    Gives E m (LatteC.splitChar 10 [] text) as := by
  cases text with
  | nil =>
    have hempty : lineEffect m [] = .pass := rfl
    exact .pass hempty h
  | cons c text =>
    rwa [textLines, if_neg (List.cons_ne_nil c text)] at h

end Append

/-! ## What the difference lists -/

/-- A name that a rule has stands for it. -/
theorem ConfigManager.Distinct.configGetRule {m : ConfigManager} (h : m.Distinct) {key : List UInt8}
    {rule : ConfigRule} (hmem : (key, rule) ∈ m.rules) : LatteC.configGetRule m key = some rule := by
  obtain ⟨rules⟩ := m
  rw [ConfigManager.Distinct] at h
  induction rules with
  | nil => cases hmem
  | cons e rules ih =>
    obtain ⟨hhead, htail⟩ := List.pairwise_cons.mp h
    rw [configGetRule_cons]
    rcases List.mem_cons.mp hmem with rfl | hmem
    · rw [if_pos (strEq_self key)]
    · rw [hhead _ hmem]
      exact ih htail hmem

section Listed

variable {E : ConfigEnv} {m : ConfigManager} {as : List Assignment} {key : List UInt8} {rule : ConfigRule}

variable {changes : List (List UInt8 × List UInt8)}

end Listed

/-! ## Files that are loaded on the way -/

/-- The files that an accepted file includes are accepted. -/
theorem Accepted.includes {E : ConfigEnv} {m : ConfigManager} {path text line p : List UInt8}
    (h : Accepted E m path) (hfile : E.files path = some text) (hline : line ∈ textLines text)
    (heff : lineEffect m line = .incl p) : Accepted E m p ∧ Includes E m path p := by
  obtain ⟨hfile', hfit, hpass, hincl⟩ := h
  obtain rfl := Option.some.inj (hfile'.symm.trans hfile)
  refine ⟨hincl line hline p heff, line, ?_, heff⟩
  obtain ⟨pre, post, hsplit⟩ := List.append_of_mem hline
  refine ⟨_, pre, post, hfile, hfit, hsplit, fun l hl ↦ ?_⟩
  have hl' : l ∈ textLines _ := hsplit ▸ List.mem_append_left _ hl
  cases heff' : lineEffect m l with
  | pass => exact Or.inl heff'
  | stop => exact absurd heff' (hpass l hl').1
  | halts halt => exact absurd heff' ((hpass l hl').2 halt)
  | incl q => exact Or.inr ⟨q, heff', hincl l hl' q heff'⟩

/-- A file that loads does not include itself, so its included files stay as they are when something is
appended to it. -/
theorem Gives.of_append {E : ConfigEnv} {m : ConfigManager} {path text config : List UInt8}
    {as : List Assignment} (haccepted : Accepted E m path)
    (hacyclic : ¬ Relation.TransGen (Includes E m) path path) (hfile : E.files path = some text)
    (h : Gives E m (textLines text) as) : Gives (E.append path config) m (textLines text) as := by
  refine h.congr (S := {p | Relation.TransGen (Includes E m) path p ∧ Accepted E m p}) ?_ ?_ ?_
  · rintro p ⟨hp, -⟩
    have hne : p ≠ path := by
      rintro rfl
      exact hacyclic hp
    simp only [ConfigEnv.append, if_neg hne]
  · rintro p ⟨hp, hacc⟩ text' hfile' line hline q heff
    obtain ⟨hq, hincl⟩ := hacc.includes hfile' hline heff
    exact ⟨hp.tail hincl, hq⟩
  · intro line hline q heff
    obtain ⟨hq, hincl⟩ := haccepted.includes hfile hline heff
    exact ⟨.single hincl, hq⟩

/-! ## Saving -/

/-- After the call the file loads, into any manager with the same rules, and each rule in `Kept` then has
the value it has now. A second call changes nothing. -/
def SaveKeeps (E : ConfigEnv) (m : ConfigManager) (path : List UInt8)
    (Kept : ConfigManager → List UInt8 → ConfigRule → Prop) : Prop :=
  ∃ d, ∀ depth, d ≤ depth → ∃ E', configSaveFile E depth m path = .ok (E', 1) ∧
    (∀ m₀, SameKinds m m₀ → ∃ m', configLoadFile E' depth m₀ path = .ok (m', 1) ∧
      ∀ key rule, (key, rule) ∈ m.rules → Kept m₀ key rule →
        m'.valueOf key = some ⟨rule.kind, rule.value⟩) ∧
    configDiffFile E' depth m path = .ok none ∧ configSaveFile E' depth m path = .ok (E', 1)

section Save

variable {E : ConfigEnv} {m : ConfigManager} {path text : List UInt8} {as : List Assignment}

end Save

/-- Where nothing is appended, the file as it is gives the values. -/
private theorem SaveKeeps.valueOf {E : ConfigEnv} {m : ConfigManager} {path : List UInt8}
    {Kept : ConfigManager → List UInt8 → ConfigRule → Prop} (h : SaveKeeps E m path Kept)
    (hsave : ∀ depth, configSaveFile E (depth + 1) m path = .ok (E, 1)) {m₀ m₁ : ConfigManager}
    (hm₀ : SameKinds m m₀) (hload : ∀ depth, configLoadFile E (depth + 1) m₀ path = .ok (m₁, 1))
    {key : List UInt8} {rule : ConfigRule} (hmem : (key, rule) ∈ m.rules) (hkept : Kept m₀ key rule) :
    m₁.valueOf key = some ⟨rule.kind, rule.value⟩ := by
  obtain ⟨d, hd⟩ := h
  obtain ⟨E', hE', hloads, -⟩ := hd (d + 1) (Nat.le_succ d)
  obtain ⟨rfl, -⟩ := Prod.mk.inj (Except.ok.inj (hE'.symm.trans (hsave d)))
  obtain ⟨m', hm', hvalue⟩ := hloads m₀ hm₀
  obtain ⟨rfl, -⟩ := Prod.mk.inj (Except.ok.inj (hm'.symm.trans (hload d)))
  exact hvalue key rule hmem hkept

end LatteC
