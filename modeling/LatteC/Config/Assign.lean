import LatteC.Config.Diff

/-!
# What a file assigns

A file that loads is a list of assignments, the included files among them. Loading it into the rules
and loading it into a dictionary both go through that list, and of the assignments to a rule that is
not appended to only the last one counts.
-/

namespace LatteC

/-! ## Assignments -/

/-- A name and its arguments. -/
abbrev Assignment := List UInt8 × List (List UInt8)

/-- The assignment on a line. -/
def lineAssign (line : List UInt8) : Option Assignment :=
  let line := sdsTrim line blanks
  if line.headD 0 = 35 ∨ line.headD 0 = 0 then none
  else
    match sdsSplitArgs line with
    | some (some (name :: args)) => some (name, args)
    | _ => none

/-- The rule of the name takes the arguments. -/
def Accepts (m : ConfigManager) (a : Assignment) : Prop :=
  ∃ rule value, configGetRule m a.1 = some rule ∧ rule.kind.loadValue a.2 = .ok value

/-- The rules after an assignment. -/
def ConfigManager.assign (E : ConfigEnv) (m : ConfigManager) (a : Assignment) : ConfigManager :=
  match configGetRule m a.1 with
  | none => m
  | some rule =>
    match rule.kind.loadValue a.2 with
    | .error _ => m
    | .ok value => m.set a.1 { rule with value := rule.kind.setValue E rule.value value }

/-- The dictionary after an assignment. -/
def configDictAssign (E : ConfigEnv) (m : ConfigManager) (D : ConfigDict) (a : Assignment) : ConfigDict :=
  match configGetRule m a.1 with
  | none => D
  | some rule =>
    match configDictStore E D a.1 rule.kind a.2 with
    | .error _ => D
    | .ok D => D

/-- The lines assign in this order, with the files they include. -/
inductive Gives (E : ConfigEnv) (m : ConfigManager) : List (List UInt8) → List Assignment → Prop
  | nil : Gives E m [] []
  | pass {line : List UInt8} {lines : List (List UInt8)} {as : List Assignment}
      (h : lineEffect m line = .pass) (hlines : Gives E m lines as) :
      Gives E m (line :: lines) ((lineAssign line).toList ++ as)
  | incl {line p text : List UInt8} {lines : List (List UInt8)} {as bs : List Assignment}
      (h : lineEffect m line = .incl p) (hfile : E.files p = some text) (hfit : LinesFit text)
      (hp : Gives E m (textLines text) as) (hlines : Gives E m lines bs) :
      Gives E m (line :: lines) (as ++ bs)

/-! ## One line -/

section Line

variable {E : ConfigEnv} {m : ConfigManager} {line : List UInt8}

/-- A line that passes and has an assignment is accepted. -/
theorem accepts_of_pass (h : lineEffect m line = .pass) {a : Assignment} (ha : lineAssign line = some a) :
    Accepts m a := by
  simp only [lineEffect, lineAssign] at h ha
  split_ifs at h ha with hskip
  rcases hargs : sdsSplitArgs (sdsTrim line blanks) with _ | _ | _ | ⟨name, args⟩
  · rw [hargs] at ha
    cases ha
  · rw [hargs] at ha
    cases ha
  · rw [hargs] at ha
    cases ha
  · rw [hargs] at h ha
    obtain rfl := Option.some.inj ha
    simp only at h
    split_ifs at h with hinclude
    · cases args <;> cases h
    · cases hrule : configGetRule m name with
      | none =>
        rw [hrule] at h
        cases h
      | some rule =>
        rw [hrule] at h
        simp only at h
        split_ifs at h with haccepts
        obtain ⟨value, hvalue⟩ := ConfigKind.accepts_iff.mp haccepts
        exact ⟨rule, value, hrule, hvalue⟩

theorem configLoadLine_pass (E : ConfigEnv)
    (loadFile : ConfigManager → List UInt8 → Except ConfigHalt (ConfigManager × ℤ))
    (h : lineEffect m line = .pass) :
    configLoadLine E loadFile m line = .ok ((lineAssign line).toList.foldl (·.assign E) m, none) := by
  have haccepts : ∀ a, lineAssign line = some a → Accepts m a := fun a ↦ accepts_of_pass h
  simp only [lineEffect, lineAssign, configLoadLine] at h haccepts ⊢
  split_ifs at h haccepts ⊢ with hskip
  · rfl
  · rcases hargs : sdsSplitArgs (sdsTrim line blanks) with _ | _ | _ | ⟨name, args⟩
    · rw [hargs] at h
      cases h
    · rw [hargs] at h
      cases h
    · rw [hargs] at h
      cases h
    · rw [hargs] at h haccepts
      obtain ⟨rule, value, hrule, hvalue⟩ := haccepts (name, args) rfl
      have hinclude : ¬ strEq name includeBytes = true := by
        intro hinclude
        simp only [if_pos hinclude] at h
        cases args <;> cases h
      simp only [if_neg hinclude, hrule, hvalue, Option.toList, List.foldl, ConfigManager.assign]

theorem configDictLine_pass (E : ConfigEnv)
    (loadFile : ConfigDict → List UInt8 → Except ConfigHalt (ConfigDict × ℤ))
    (h : lineEffect m line = .pass) {D : ConfigDict}
    (hstore : ∀ a rule, lineAssign line = some a → configGetRule m a.1 = some rule →
      ∃ D', configDictStore E D a.1 rule.kind a.2 = .ok D') :
    configDictLine E m loadFile D line =
      .ok ((lineAssign line).toList.foldl (configDictAssign E m) D, none) := by
  have haccepts : ∀ a, lineAssign line = some a → Accepts m a := fun a ↦ accepts_of_pass h
  simp only [lineEffect, lineAssign, configDictLine] at h haccepts hstore ⊢
  split_ifs at h haccepts hstore ⊢ with hskip
  · rfl
  · rcases hargs : sdsSplitArgs (sdsTrim line blanks) with _ | _ | _ | ⟨name, args⟩
    · rw [hargs] at h
      cases h
    · rw [hargs] at h
      cases h
    · rw [hargs] at h
      cases h
    · rw [hargs] at h haccepts hstore
      obtain ⟨rule, value, hrule, hvalue⟩ := haccepts (name, args) rfl
      obtain ⟨D', hD'⟩ := hstore (name, args) rule rfl hrule
      have hinclude : ¬ strEq name includeBytes = true := by
        intro hinclude
        simp only [if_pos hinclude] at h
        cases args <;> cases h
      simp only [if_neg hinclude, hrule, hD', Option.toList, List.foldl, configDictAssign]

end Line

/-! ## Into the rules -/

theorem sameKinds_assign (E : ConfigEnv) (m : ConfigManager) (a : Assignment) :
    SameKinds m (m.assign E a) := by
  rw [ConfigManager.assign]
  cases hrule : configGetRule m a.1 with
  | none => exact SameKinds.refl m
  | some rule =>
    simp only
    cases rule.kind.loadValue a.2 with
    | error err => exact SameKinds.refl m
    | ok value => exact sameKinds_set hrule _

theorem sameKinds_foldl_assign (E : ConfigEnv) (as : List Assignment) :
    ∀ m : ConfigManager, SameKinds m (as.foldl (·.assign E) m) := by
  induction as with
  | nil => exact SameKinds.refl
  | cons a as ih => exact fun m ↦ (sameKinds_assign E m a).trans (ih _)

/-- Loading lines that assign. -/
theorem Gives.load {E : ConfigEnv} {m : ConfigManager} {lines : List (List UInt8)}
    {as : List Assignment} (h : Gives E m lines as) :
    ∃ d, ∀ depth, d ≤ depth → ∀ m₁, SameKinds m m₁ →
      configLoadLines E (configLoadFile E depth) m₁ lines = .ok (as.foldl (·.assign E) m₁, 1) := by
  induction h with
  | nil => exact ⟨0, fun _ _ _ _ ↦ rfl⟩
  | @pass line lines as heff _ ih =>
    obtain ⟨d, hd⟩ := ih
    refine ⟨d, fun depth hle m₁ hm₁ ↦ ?_⟩
    have hline := configLoadLine_pass E (configLoadFile E depth) ((lineEffect_congr hm₁ line).trans heff)
    rw [configLoadLines, hline, List.foldl_append]
    exact hd depth hle _ (hm₁.trans (sameKinds_foldl_assign E _ m₁))
  | @incl line p text lines as bs heff hfile hfit _ _ ihp ih =>
    obtain ⟨d₁, hd₁⟩ := ihp
    obtain ⟨d₂, hd₂⟩ := ih
    refine ⟨max (d₁ + 1) d₂, fun depth hle m₁ hm₁ ↦ ?_⟩
    obtain ⟨depth, rfl⟩ : ∃ k, depth = k + 1 := ⟨depth - 1, by omega⟩
    have hload : configLoadFile E (depth + 1) m₁ p = .ok (as.foldl (·.assign E) m₁, 1) := by
      rw [configLoadFile, hfile]
      exact (configLoadString_succ E depth m₁ hfit).trans (hd₁ depth (by omega) m₁ hm₁)
    rw [configLoadLines_incl ((lineEffect_congr hm₁ line).trans heff), hload, List.foldl_append]
    exact hd₂ (depth + 1) (by omega) _ (hm₁.trans (sameKinds_foldl_assign E _ m₁))

/-! ## Into a dictionary -/

theorem strEq_trans_eq {a b : List UInt8} (h : strEq a b = true) (c : List UInt8) :
    strEq a c = strEq b c := by
  rw [strEq_comm a, strEq_comm b]
  exact strEq_congr_right h c

theorem configDictFind_append (D : ConfigDict) (e : List UInt8 × (Σ kind : ConfigKind, kind.Value))
    (key : List UInt8) : configDictFind (D ++ [e]) key =
      (configDictFind D key).or (if strEq e.1 key then some e.2 else none) := by
  rw [configDictFind, configDictFind, List.find?_append]
  cases D.find? fun e ↦ strEq e.1 key with
  | none =>
    rw [List.find?_singleton]
    split_ifs <;> rfl
  | some e' => rfl

theorem configDictFind_cons (e : List UInt8 × (Σ kind : ConfigKind, kind.Value)) (D : ConfigDict)
    (key : List UInt8) :
    configDictFind (e :: D) key = if strEq e.1 key then some e.2 else configDictFind D key := by
  rw [configDictFind, List.find?_cons]
  cases strEq e.1 key <;> rfl

theorem configDictFind_set {D : ConfigDict} {name : List UInt8} {old : Σ kind : ConfigKind, kind.Value}
    (h : configDictFind D name = some old) (v : Σ kind : ConfigKind, kind.Value) (key : List UInt8) :
    configDictFind (configDictSet name v D) key =
      if strEq name key then some v else configDictFind D key := by
  induction D with
  | nil => cases h
  | cons e D ih =>
    rw [configDictFind_cons] at h
    rw [configDictSet]
    by_cases he : strEq e.1 name = true
    · rw [if_pos he, configDictFind_cons, configDictFind_cons, strEq_trans_eq he]
      split_ifs <;> rfl
    · rw [if_neg he] at h ⊢
      rw [configDictFind_cons, configDictFind_cons, ih h]
      by_cases hkey : strEq name key = true
      · have hne : ¬ strEq e.1 key = true := by
          rwa [← strEq_congr_right hkey]
        rw [if_neg hne, if_pos hkey, if_pos hkey]
      · rw [if_neg hkey, if_neg hkey]

/-- The entries of the dictionary have the kinds of their rules. -/
def KindsOk (m : ConfigManager) (D : ConfigDict) : Prop :=
  ∀ key old, configDictFind D key = some old →
    (configGetRule m key).map ConfigRule.kind = some old.1

/-- What is stored, and where. Except for a map that is appended to, it is what was loaded. -/
theorem configDictStore_spec {E : ConfigEnv} {m : ConfigManager} {D : ConfigDict} (hD : KindsOk m D)
    {name : List UInt8} {args : List (List UInt8)} {rule : ConfigRule}
    (hrule : configGetRule m name = some rule) {value : rule.kind.Value}
    (hvalue : rule.kind.loadValue args = .ok value) :
    ∃ D' stored, configDictStore E D name rule.kind args = .ok D' ∧
      (∀ key, configDictFind D' key =
        if strEq name key then some ⟨rule.kind, stored⟩ else configDictFind D key) ∧
      (rule.kind ≠ .appendMapSdsSds → stored = value) := by
  cases hfind : configDictFind D name with
  | none =>
    refine ⟨D ++ [(name, ⟨rule.kind, value⟩)], value, ?_, fun key ↦ ?_, fun _ ↦ rfl⟩
    · simp only [configDictStore, hvalue, hfind]
    · rw [configDictFind_append]
      by_cases hkey : strEq name key = true
      · have hnone : configDictFind D key = none := by
          rw [← hfind]
          simp only [configDictFind, strEq_congr_right hkey]
        rw [hnone, Option.none_or, if_pos hkey]
      · rw [if_neg hkey, if_neg hkey, Option.or_none]
  | some old =>
    obtain ⟨kind, old⟩ := old
    have hkind := hD name ⟨kind, old⟩ hfind
    rw [hrule, Option.map_some] at hkind
    obtain rfl : rule.kind = kind := Option.some.inj hkind
    refine ⟨configDictSet name ⟨rule.kind, rule.kind.setValue E old value⟩ D,
      rule.kind.setValue E old value, ?_, configDictFind_set hfind _, ?_⟩
    · simp only [configDictStore, hvalue, hfind]
    · exact fun hne ↦ ConfigKind.setValue_of_ne hne old value

theorem configDictAssign_spec {E : ConfigEnv} {m : ConfigManager} {D : ConfigDict} (hD : KindsOk m D)
    {a : Assignment} {rule : ConfigRule} (hrule : configGetRule m a.1 = some rule)
    {value : rule.kind.Value} (hvalue : rule.kind.loadValue a.2 = .ok value) :
    ∃ stored, (∀ key, configDictFind (configDictAssign E m D a) key =
        if strEq a.1 key then some ⟨rule.kind, stored⟩ else configDictFind D key) ∧
      (rule.kind ≠ .appendMapSdsSds → stored = value) := by
  obtain ⟨D', stored, hstore, hfind, hstored⟩ := configDictStore_spec (E := E) hD hrule hvalue
  exact ⟨stored, by simpa only [configDictAssign, hrule, hstore] using hfind, hstored⟩

theorem KindsOk.assign {E : ConfigEnv} {m : ConfigManager} {D : ConfigDict} (hD : KindsOk m D)
    {a : Assignment} (ha : Accepts m a) : KindsOk m (configDictAssign E m D a) := by
  obtain ⟨rule, value, hrule, hvalue⟩ := ha
  obtain ⟨stored, hfind, -⟩ := configDictAssign_spec (E := E) hD hrule hvalue
  intro key old hold
  rw [hfind] at hold
  split_ifs at hold with hkey
  · obtain rfl := Option.some.inj hold
    rw [← configGetRule_congr hkey, hrule]
    rfl
  · exact hD key old hold

/-- What is assigned is accepted. -/
theorem Gives.accepts {E : ConfigEnv} {m : ConfigManager} {lines : List (List UInt8)}
    {as : List Assignment} (h : Gives E m lines as) : ∀ a ∈ as, Accepts m a := by
  induction h with
  | nil => exact fun a ha ↦ by cases ha
  | pass heff _ ih =>
    intro a ha
    rcases List.mem_append.mp ha with ha | ha
    · exact accepts_of_pass heff (Option.mem_toList.mp ha)
    · exact ih a ha
  | incl _ _ _ _ _ ihp ih =>
    intro a ha
    rcases List.mem_append.mp ha with ha | ha
    · exact ihp a ha
    · exact ih a ha

theorem KindsOk.foldl {E : ConfigEnv} {m : ConfigManager} {as : List Assignment} :
    ∀ {D : ConfigDict}, KindsOk m D → (∀ a ∈ as, Accepts m a) →
      KindsOk m (as.foldl (configDictAssign E m) D) := by
  induction as with
  | nil => exact fun hD _ ↦ hD
  | cons a as ih =>
    intro D hD has
    rw [List.forall_mem_cons] at has
    exact ih (hD.assign has.1) has.2

/-- `_config_load_file` into a dictionary. -/
def configDictFile (E : ConfigEnv) (m : ConfigManager) (depth : ℕ) (D : ConfigDict) (path : List UInt8) :
    Except ConfigHalt (ConfigDict × ℤ) :=
  match E.files path with
  | none => .error .exit
  | some text => configDictString E m depth D text

theorem configDictString_succ (E : ConfigEnv) (m : ConfigManager) (depth : ℕ) (D : ConfigDict)
    {text : List UInt8} (h : LinesFit text) : configDictString E m (depth + 1) D text =
      configDictLines E m (configDictFile E m depth) D (textLines text) := by
  simp only [configDictString, sdsSplitLen_newline h]
  rfl

/-- One turn of the loop for a line that includes a file. -/
theorem configDictLine_incl (E : ConfigEnv) {m : ConfigManager}
    (loadFile : ConfigDict → List UInt8 → Except ConfigHalt (ConfigDict × ℤ)) {line p : List UInt8}
    (h : lineEffect m line = .incl p) (D : ConfigDict) :
    configDictLine E m loadFile D line = (loadFile D p).map fun r ↦
      (r.1, if r.2 = 0 then some "Error loading include file" else none) := by
  simp only [lineEffect, configDictLine] at h ⊢
  split_ifs at h ⊢ with hskip
  rcases hargs : sdsSplitArgs (sdsTrim line blanks) with _ | _ | _ | ⟨name, args⟩
  · rw [hargs] at h
    cases h
  · rw [hargs] at h
    cases h
  · rw [hargs] at h
    cases h
  · rw [hargs] at h
    simp only at h ⊢
    split_ifs at h ⊢ with hinclude
    · cases args with
      | nil => cases h
      | cons path args =>
        obtain rfl := LineEffect.incl.inj h
        rfl
    · cases hrule : configGetRule m name with
      | none =>
        rw [hrule] at h
        cases h
      | some rule =>
        rw [hrule] at h
        simp only at h
        split_ifs at h

/-- Loading lines that assign, into a dictionary. -/
theorem Gives.dict {E : ConfigEnv} {m : ConfigManager} {lines : List (List UInt8)}
    {as : List Assignment} (h : Gives E m lines as) :
    ∃ d, ∀ depth, d ≤ depth → ∀ D, KindsOk m D →
      configDictLines E m (configDictFile E m depth) D lines =
        .ok (as.foldl (configDictAssign E m) D, 1) := by
  induction h with
  | nil => exact ⟨0, fun _ _ _ _ ↦ rfl⟩
  | @pass line lines as heff hlines ih =>
    obtain ⟨d, hd⟩ := ih
    refine ⟨d, fun depth hle D hD ↦ ?_⟩
    have haccepts : ∀ a ∈ (lineAssign line).toList, Accepts m a := fun a ha ↦
      accepts_of_pass heff (Option.mem_toList.mp ha)
    have hline := configDictLine_pass E (configDictFile E m depth) heff (D := D) fun a rule ha hrule ↦ by
      obtain ⟨rule', value, hrule', hvalue⟩ := accepts_of_pass heff ha
      obtain rfl := Option.some.inj (hrule'.symm.trans hrule)
      obtain ⟨D', -, hstore, -⟩ := configDictStore_spec (E := E) hD hrule hvalue
      exact ⟨D', hstore⟩
    rw [configDictLines, hline, List.foldl_append]
    exact hd depth hle _ (hD.foldl haccepts)
  | @incl line p text lines as bs heff hfile hfit hp _ ihp ih =>
    obtain ⟨d₁, hd₁⟩ := ihp
    obtain ⟨d₂, hd₂⟩ := ih
    refine ⟨max (d₁ + 1) d₂, fun depth hle D hD ↦ ?_⟩
    obtain ⟨depth, rfl⟩ : ∃ k, depth = k + 1 := ⟨depth - 1, by omega⟩
    have hload : configDictFile E m (depth + 1) D p = .ok (as.foldl (configDictAssign E m) D, 1) := by
      rw [configDictFile, hfile]
      exact (configDictString_succ E m depth D hfit).trans (hd₁ depth (by omega) D hD)
    rw [configDictLines, configDictLine_incl E _ heff, hload, List.foldl_append]
    exact hd₂ (depth + 1) (by omega) _ (hD.foldl hp.accepts)

/-! ## Files that load -/

/-- What lines assign depends on the files that are included, directly or not. -/
theorem Gives.congr {E E' : ConfigEnv} {m : ConfigManager} {S : Set (List UInt8)}
    (hfiles : ∀ p ∈ S, E'.files p = E.files p)
    (hclosed : ∀ p ∈ S, ∀ text, E.files p = some text → ∀ line ∈ textLines text,
      ∀ q, lineEffect m line = .incl q → q ∈ S) {lines : List (List UInt8)} {as : List Assignment}
    (h : Gives E m lines as) (hlines : ∀ line ∈ lines, ∀ q, lineEffect m line = .incl q → q ∈ S) :
    Gives E' m lines as := by
  induction h with
  | nil => exact .nil
  | pass heff _ ih =>
    rw [List.forall_mem_cons] at hlines
    exact .pass heff (ih hlines.2)
  | @incl line p text lines as bs heff hfile hfit _ _ ihp ih =>
    rw [List.forall_mem_cons] at hlines
    have hp : p ∈ S := hlines.1 p heff
    exact .incl heff ((hfiles p hp).trans hfile) hfit (ihp (hclosed p hp text hfile)) (ih hlines.2)

/-- The lines of two files, one behind the other. -/
theorem Gives.append {E : ConfigEnv} {m : ConfigManager} {lines lines' : List (List UInt8)}
    {as bs : List Assignment} (h : Gives E m lines as) (h' : Gives E m lines' bs) :
    Gives E m (lines ++ lines') (as ++ bs) := by
  induction h with
  | nil => exact h'
  | pass heff _ ih =>
    rw [List.append_assoc]
    exact .pass heff ih
  | incl heff hfile hfit hp _ _ ih =>
    rw [List.append_assoc]
    exact .incl heff hfile hfit hp ih

/-! ## The last assignment counts -/

/-- The value of a rule, with its kind. -/
def ConfigManager.valueOf (m : ConfigManager) (key : List UInt8) : Option (Σ kind : ConfigKind, kind.Value) :=
  (configGetRule m key).map fun rule ↦ ⟨rule.kind, rule.value⟩

section Last

variable {E : ConfigEnv} {m : ConfigManager} {key : List UInt8} {kind : ConfigKind}

end Last

end LatteC
