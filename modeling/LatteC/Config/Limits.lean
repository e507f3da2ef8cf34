import LatteC.Config.Basic
import LatteC.Foundation.CallMachine

/-!
# The limits of numeric rules

A numeric rule is created with a lower and an upper bound, and with `is_valid_int64_value` to check them.
Nothing ever calls it: every way to give the rule a value takes whatever `load_int64_value` returns. The
value therefore stays within the limits as long as nobody asks for another one, and no longer.

## The argument

All values come from an argument list that starts with the name of the rule: the list is an argument
of `config_set_value`, or it is a line of a text. What a single list can do is said once
(`ArgvInLimits`); loading a text is a sequence of such lists.
-/

namespace LatteC

/-- The ways to give values to rules. -/
inductive ConfigCall where
  | initAllData
  | loadString (str : List UInt8)
  | loadArgv (argv : List (List UInt8))
  | setValue (argv : List (List UInt8))
deriving DecidableEq

/-- One call, with the number that it returns. -/
def configStep (E : ConfigEnv) (depth : ℕ) (m : ConfigManager) :
    ConfigCall → Option (ConfigManager × ℤ)
  | .initAllData => ((configInitAllData E m).map fun r ↦ (r.1, (r.2 : ℤ))).toOption
  | .loadString str => (configLoadString E depth m str).toOption
  | .loadArgv argv => (configLoadArgv E depth m argv).toOption
  | .setValue argv => ((configSetValue E m argv).map fun r ↦ (r.1, r.2.1)).toOption

/-- A numeric rule with a name, bounds, and a default between them. -/
structure NumericRule where
  key : List UInt8
  disableWrite : Bool
  disableSave : Bool
  lowerBound : ℤ
  upperBound : ℤ
  checkValue : Option (ℤ → ℤ → Bool)
  defaultValue : ℤ
  isInt64_lowerBound : IsInt64 lowerBound
  isInt64_upperBound : IsInt64 upperBound
  lowerBound_le : lowerBound ≤ defaultValue
  le_upperBound : defaultValue ≤ upperBound

namespace NumericRule

variable (N : NumericRule)

/-- The rule as `config_rule_new_numeric_rule` returns it, with a value. -/
def rule (v : ℤ) : ConfigRule :=
  configRuleNewNumericRule N.disableWrite N.disableSave v N.lowerBound N.upperBound N.checkValue
    N.defaultValue

/-- The code's own check. -/
def isValid (v : ℤ) : Bool := isValidInt64Value N.lowerBound N.upperBound v

/-- The rule is there, and its value is within the limits. -/
def WithinLimits (m : ConfigManager) : Prop :=
  ∃ v, configGetRule m N.key = some (N.rule v) ∧ N.lowerBound ≤ v ∧ v ≤ N.upperBound

/-! ## Asking for a value within the limits -/

/-- The list does not give the rule a number outside of its limits. -/
def argvInLimits : (argv : List (List UInt8)) → Bool
  | [] => true
  | name :: args =>
    !strEq name N.key || match loadInt64Value args with
      | .ok v => N.isValid v
      | .error _ => true

/-- A line that is neither empty nor a comment does not give the rule a number outside of its limits. -/
def lineInLimits (line : List UInt8) : Bool :=
  (sdsTrim line blanks).headD 0 = 35 || (sdsTrim line blanks).headD 0 = 0 ||
    match sdsSplitArgs (sdsTrim line blanks) with
    | some (some argv) => N.argvInLimits argv
    | _ => true

/-- No line of the text gives the rule a number outside of its limits. -/
def textInLimits (text : List UInt8) : Bool :=
  match sdsSplitLen text [10] with
  | none => true
  | some (lines, _) => lines.all N.lineInLimits

/-- The call does not ask for a number outside of the limits. -/
def callInLimits : ConfigCall → Bool
  | .initAllData => true
  | .loadString str => N.textInLimits str
  | .loadArgv argv => N.textInLimits (configArgvText (argv.map cString) [])
  | .setValue argv => N.argvInLimits argv

/-! ## One call -/

variable {N} {E : ConfigEnv} {m m' : ConfigManager}

theorem isValid_iff (v : ℤ) : N.isValid v = true ↔ N.lowerBound ≤ v ∧ v ≤ N.upperBound := by
  simp [isValid, isValidInt64Value]

/-- Obeying an argument list that does not ask for a number outside of the limits. -/
theorem WithinLimits.of_obeys (hm : N.WithinLimits m) {argv : List (List UInt8)}
    (hargv : N.argvInLimits argv = true) (h : Obeys E m argv m') : N.WithinLimits m' := by
  obtain ⟨v, hv, hlimits⟩ := hm
  obtain ⟨name, args, rule, value, rfl, hrule, hvalue, rfl⟩ := h
  by_cases hname : strEq name N.key = true
  · -- it is the rule itself
    rw [configGetRule_congr hname, hv] at hrule
    obtain rfl := Option.some.inj hrule
    have hload : loadInt64Value args = .ok value := hvalue
    rw [argvInLimits, hname, hload] at hargv
    refine ⟨value, ?_, (isValid_iff value).mp hargv⟩
    have hset := configGetRule_set_self ((configGetRule_congr hname m).trans hv) (N.rule value)
    rwa [configGetRule_congr hname] at hset
  · refine ⟨v, ?_, hlimits⟩
    rw [configGetRule_set_of_ne (Bool.eq_false_iff.mpr hname), hv]

theorem forall_lineInLimits {text : List UInt8} (h : N.textInLimits text = true)
    {lines : List (List UInt8)} {n : ℕ} (hsplit : sdsSplitLen text [10] = some (lines, n)) :
    ∀ line ∈ lines, N.lineInLimits line = true := by
  rw [textInLimits, hsplit] at h
  exact List.all_eq_true.mp h

theorem WithinLimits.of_configLoadString
    (hfiles : ∀ path text, E.files path = some text → N.textInLimits text = true)
    (hm : N.WithinLimits m) {str : List UInt8} (hstr : N.textInLimits str = true) {depth : ℕ} {r : ℤ}
    (h : configLoadString E depth m str = .ok (m', r)) : N.WithinLimits m' := by
  refine configLoadString_invariant (L := fun line ↦ N.lineInLimits line = true) ?_ ?_ hm
    (forall_lineInLimits hstr) h
  · intro m m' line argv hm hline hargs hobeys
    refine hm.of_obeys ?_ hobeys
    rw [lineInLimits, hargs.split_eq] at hline
    simpa only [hargs.not_comment, hargs.not_empty, decide_false, Bool.false_or] using hline
  · intro path text lines n htext hsplit
    exact forall_lineInLimits (hfiles path text htext) hsplit

/-! ## The defaults -/

theorem isInt64_defaultValue (N : NumericRule) : IsInt64 N.defaultValue :=
  ⟨N.isInt64_lowerBound.1.trans N.lowerBound_le,
    lt_of_le_of_lt N.le_upperBound N.isInt64_upperBound.2⟩

/-- The rule gets its default. -/
theorem configInitRule_rule (N : NumericRule) (E : ConfigEnv) (v : ℤ) :
    configInitRule E (N.rule v) = .ok (some (N.rule N.defaultValue)) := by
  have hdefault := N.isInt64_defaultValue
  have hsplit := sdsSplitArgs_of_isPlain (isPlain_numeral N.defaultValue)
  have hload : (N.rule v).kind.loadValue [Decimal.numeral N.defaultValue] = .ok N.defaultValue := by
    change loadInt64Value [Decimal.numeral N.defaultValue] = .ok N.defaultValue
    rw [loadInt64Value, loadSingle, sds2ll_numeral hdefault]
  have hvalue : (N.rule v).defaultValue = some (Decimal.numeral N.defaultValue) :=
    ll2sds_eq hdefault
  simp only [configInitRule, hvalue, hsplit, hload]
  rw [← hvalue]
  rfl

/-- What the loop of `config_init_all_data` leaves in the rule: what was there, or its default. Without an error
it is the default. -/
theorem configInitLoop_rule {rules : List (List UInt8 × ConfigRule)} {v : ℤ}
    (hm : configGetRule ⟨rules⟩ N.key = some (N.rule v)) {r : List (List UInt8 × ConfigRule) × Option ℕ}
    (h : configInitLoop E rules = .ok r) :
    configGetRule ⟨r.1⟩ N.key = some (N.rule N.defaultValue) ∨
      r.2 = none ∧ configGetRule ⟨r.1⟩ N.key = some (N.rule v) := by
  induction rules generalizing r with
  | nil => cases hm
  | cons e es ih =>
    rw [configInitLoop] at h
    rcases hinit : configInitRule E e.2 with halt | _ | rule
    · rw [hinit] at h
      cases h
    · rw [hinit] at h
      cases h
      exact Or.inr ⟨rfl, hm⟩
    · rw [hinit] at h
      cases hrest : configInitLoop E es with
      | error halt =>
        rw [hrest] at h
        cases h
      | ok r' =>
        rw [hrest] at h
        cases h
        rw [configGetRule_cons] at hm
        rw [configGetRule_cons]
        split_ifs at hm ⊢ with hkey
        · rw [Option.some.inj hm, configInitRule_rule] at hinit
          exact Or.inl (Except.ok.inj hinit).symm
        · obtain hdefault | ⟨hnone, hv⟩ := ih hm hrest
          · exact Or.inl hdefault
          · exact Or.inr ⟨congrArg (Option.map (· + 1)) hnone, hv⟩

section Init

variable {n : ℕ} (h : configInitAllData E m = .ok (m', n))

include h in
/-- What `config_init_all_data` leaves in the rule. -/
theorem configInitAllData_rule {v : ℤ} (hm : configGetRule m N.key = some (N.rule v)) :
    configGetRule m' N.key = some (N.rule N.defaultValue) ∨
      n = 0 ∧ configGetRule m' N.key = some (N.rule v) := by
  rw [configInitAllData] at h
  cases hloop : configInitLoop E m.rules with
  | error halt =>
    rw [hloop] at h
    cases h
  | ok r =>
    rw [hloop] at h
    cases h
    have hm' : configGetRule ⟨m.rules⟩ N.key = some (N.rule v) := hm
    obtain hdefault | ⟨hnone, hv⟩ := configInitLoop_rule hm' hloop
    · exact Or.inl hdefault
    · refine Or.inr ⟨?_, hv⟩
      rw [hnone]
      rfl

include h in
/-- When `config_init_all_data` does not fail every rule has got its default. -/
theorem withinLimits_configInitAllData {v : ℤ} (hm : configGetRule m N.key = some (N.rule v)) (hn : n ≠ 0) :
    N.WithinLimits m' := by
  obtain hdefault | ⟨hzero, -⟩ := configInitAllData_rule h hm
  · exact ⟨_, hdefault, N.lowerBound_le, N.le_upperBound⟩
  · exact absurd hzero hn

include h in
/-- Setting the defaults never leaves the limits, even when it fails half way. -/
theorem WithinLimits.of_configInitAllData (hm : N.WithinLimits m) : N.WithinLimits m' := by
  obtain ⟨v, hv, hlimits⟩ := hm
  obtain hdefault | ⟨-, hkept⟩ := configInitAllData_rule h hv
  · exact ⟨_, hdefault, N.lowerBound_le, N.le_upperBound⟩
  · exact ⟨v, hkept, hlimits⟩

end Init

theorem configStep_initAllData {depth : ℕ} {r : ℤ} (h : configStep E depth m .initAllData = some (m', r)) :
    ∃ n : ℕ, configInitAllData E m = .ok (m', n) ∧ r = n := by
  rw [configStep] at h
  cases hinit : configInitAllData E m with
  | error halt =>
    rw [hinit] at h
    cases h
  | ok r =>
    rw [hinit] at h
    cases h
    exact ⟨r.2, rfl, rfl⟩

/-- One call that does not ask for a number outside of the limits. -/
theorem WithinLimits.of_configStep
    (hfiles : ∀ path text, E.files path = some text → N.textInLimits text = true)
    (hm : N.WithinLimits m) {call : ConfigCall} (hcall : N.callInLimits call = true) {depth : ℕ}
    {r : ℤ} (h : configStep E depth m call = some (m', r)) : N.WithinLimits m' := by
  have hok : ∀ {α : Type} {x : Except ConfigHalt α} {a : α}, x.toOption = some a → x = .ok a := by
    intro α x a hx
    cases x with
    | error halt => cases hx
    | ok b => exact congrArg _ (Option.some.inj hx)
  cases call with
  | initAllData =>
    obtain ⟨n, hinit, -⟩ := configStep_initAllData h
    exact hm.of_configInitAllData hinit
  | loadString str => exact hm.of_configLoadString hfiles hcall (hok h)
  | loadArgv argv => exact hm.of_configLoadString hfiles hcall (hok h)
  | setValue argv =>
    rw [configStep] at h
    cases hset : configSetValue E m argv with
    | error halt =>
      rw [hset] at h
      cases h
    | ok r =>
      rw [hset] at h
      cases h
      rcases configSetValue_cases hset with heq | hobeys
      · rw [heq]
        exact hm
      · exact hm.of_obeys hcall hobeys

/-! ## Every run -/

theorem WithinLimits.of_run
    (hfiles : ∀ path text, E.files path = some text → N.textInLimits text = true) {depth : ℕ}
    {calls : List ConfigCall} (hcalls : ∀ call ∈ calls, N.callInLimits call = true)
    (hm : N.WithinLimits m) {replies : List ℤ}
    (hrun : CallMachine.run (configStep E depth) m calls = some (m', replies)) :
    N.WithinLimits m' := by
  induction calls generalizing m replies with
  | nil =>
    cases hrun
    exact hm
  | cons call calls ih =>
    rw [List.forall_mem_cons] at hcalls
    obtain ⟨m₁, r, replies', hstep, hrest, -⟩ := CallMachine.run_cons_eq_some hrun
    exact ih hcalls.2 (hm.of_configStep hfiles hcalls.1 hstep) hrest

end NumericRule

/-- **The value of a numeric rule stays within its limits as long as no call asks for a number outside of
them.** The variable that holds the value may start out within the limits, or get its default from the
first call. Since nothing checks the limits, a call that asks for another number gets it. -/
theorem config_limits_run (N : NumericRule) {E : ConfigEnv} {depth : ℕ} {m : ConfigManager} {v : ℤ}
    (hrule : configGetRule m N.key = some (N.rule v))
    (hfiles : ∀ path text, E.files path = some text → N.textInLimits text = true)
    {calls : List ConfigCall} (hcalls : ∀ call ∈ calls, N.callInLimits call = true)
    (hstart : (N.lowerBound ≤ v ∧ v ≤ N.upperBound) ∨
      (calls.head? = some .initAllData ∧ ∀ m₁ n, configInitAllData E m = .ok (m₁, n) → n ≠ 0))
    {m' : ConfigManager} {replies : List ℤ}
    (hrun : CallMachine.run (configStep E depth) m calls = some (m', replies)) :
    ∃ v', configGetRule m' N.key = some (N.rule v') ∧ N.lowerBound ≤ v' ∧ v' ≤ N.upperBound := by
  rcases hstart with hlimits | ⟨hhead, hinit⟩
  · exact NumericRule.WithinLimits.of_run hfiles hcalls ⟨v, hrule, hlimits⟩ hrun
  · obtain ⟨calls, rfl⟩ := List.head?_eq_some_iff.mp hhead
    obtain ⟨m₁, r, replies', hstep, hrest, -⟩ := CallMachine.run_cons_eq_some hrun
    obtain ⟨n, hn, -⟩ := NumericRule.configStep_initAllData hstep
    rw [List.forall_mem_cons] at hcalls
    exact NumericRule.WithinLimits.of_run hfiles hcalls.2
      (NumericRule.withinLimits_configInitAllData hn hrule (hinit m₁ n hn)) hrest

/-- A rule `n` with the limits `0` and `10` and the default `5`. -/
def numericRuleTen : NumericRule where
  key := [110]
  disableWrite := false
  disableSave := false
  lowerBound := 0
  upperBound := 10
  checkValue := none
  defaultValue := 5
  isInt64_lowerBound := by decide
  isInt64_upperBound := by decide
  lowerBound_le := by decide
  le_upperBound := by decide

/-- The rule alone, with `5` as its value. -/
def configManagerTen : ConfigManager := ⟨[([110], numericRuleTen.rule 5)]⟩

/-- `n 7`, and then `n` is set to `9`. -/
theorem config_limits_run_test : ∃ v',
    ((CallMachine.run (configStep configEnvNoFiles 1) configManagerTen
      [.loadString [110, 32, 55], .setValue [[110], [57]]]).bind fun r ↦
        configGetRule r.1 [110]) = some (numericRuleTen.rule v') ∧ 0 ≤ v' ∧ v' ≤ 10 := by
  obtain ⟨m', replies, hrun⟩ : ∃ m' replies, CallMachine.run (configStep configEnvNoFiles 1)
      configManagerTen [.loadString [110, 32, 55], .setValue [[110], [57]]] = some (m', replies) :=
    ⟨_, _, rfl⟩
  obtain ⟨v', hv', hlimits⟩ := config_limits_run numericRuleTen (v := 5) rfl (by intro _ _ h; cases h)
    (by decide) (Or.inl (by decide)) hrun
  exact ⟨v', by rw [hrun]; exact hv', hlimits⟩

/-- Setting `n` to `100` is not rejected. -/
theorem config_limits_exceeded : ∃ m' replies, CallMachine.run (configStep configEnvNoFiles 1)
      configManagerTen [.setValue [[110], [49, 48, 48]]] = some (m', replies) ∧
    configGetRule m' numericRuleTen.key = some (numericRuleTen.rule 100) ∧
    ¬ (numericRuleTen.lowerBound ≤ 100 ∧ 100 ≤ numericRuleTen.upperBound) :=
  ⟨_, _, rfl, rfl, by decide⟩

end LatteC
