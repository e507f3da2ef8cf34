import LatteC.Config.Lines
import LatteC.Sds.Quoting

/-!
# The arguments of the program

`config_load_argv` turns an argument vector into a text and loads that. An option `--k` starts a line, and
the values behind it go on that line in quotes. Each step of loading undoes one step of this: the quotes keep
newlines out of the lines, so the text splits into the lines it was put together from; trimming takes the
space at the end of a line; and splitting gives the name and the values back.

## The calls

`configArgvCalls` is the list of the calls of `load_value` that loading makes, with the name of the rule and the
arguments. It is read off the loop of `_config_load_string`, and goes through included files as that does.
-/

namespace LatteC

/-! ## The calls of `load_value` -/

/-- The calls in one turn of the loop of `_config_load_string`. -/
def configLineCalls (fileCalls : ConfigManager → List UInt8 → List Assignment) (m : ConfigManager)
    (line : List UInt8) : List Assignment :=
  let line := sdsTrim line blanks
  if line.headD 0 = 35 ∨ line.headD 0 = 0 then []
  else
    match sdsSplitArgs line with
    | some (some (name :: args)) =>
      if strEq name includeBytes then
        match args with
        | [] => []
        | path :: _ => fileCalls m (cString path)
      else
        match configGetRule m name with
        | none => []
        | some _ => [(name, args)]
    | _ => []

/-- The calls in the loop of `_config_load_string`. -/
def configLinesCalls (E : ConfigEnv)
    (loadFile : ConfigManager → List UInt8 → Except ConfigHalt (ConfigManager × ℤ))
    (fileCalls : ConfigManager → List UInt8 → List Assignment) :
    ConfigManager → (lines : List (List UInt8)) → List Assignment
  | _, [] => []
  | m, line :: lines =>
    configLineCalls fileCalls m line ++
      match configLoadLine E loadFile m line with
      | .ok (m, none) => configLinesCalls E loadFile fileCalls m lines
      | _ => []

/-- The calls in `config_load_string`. -/
def configStringCalls (E : ConfigEnv) : (depth : ℕ) → ConfigManager → (str : List UInt8) → List Assignment
  | 0, _, _ => []
  | depth + 1, m, str =>
    match sdsSplitLen str [10] with
    | none => []
    | some (lines, _) =>
      configLinesCalls E (configLoadFile E depth)
        (fun m path ↦
          match E.files path with
          | none => []
          | some text => configStringCalls E depth m text)
        m lines

/-- The calls in `config_load_argv`. -/
def configArgvCalls (E : ConfigEnv) (depth : ℕ) (m : ConfigManager) (argv : List (List UInt8)) :
    List Assignment :=
  configStringCalls E depth m (configArgvText (argv.map cString) [])

/-! ## What the calls do -/

section Calls

variable {E : ConfigEnv} {loadFile : ConfigManager → List UInt8 → Except ConfigHalt (ConfigManager × ℤ)}
  {fileCalls : ConfigManager → List UInt8 → List Assignment} {m m' : ConfigManager}

/-- The rules after one turn of the loop are those after its calls, a call that fails being one that leaves
them as they are. -/
theorem eq_foldl_configLineCalls
    (hfile : ∀ m path m' r, loadFile m path = .ok (m', r) → m' = (fileCalls m path).foldl (·.assign E) m)
    {line : List UInt8} {err : Option String} (h : configLoadLine E loadFile m line = .ok (m', err)) :
    m' = (configLineCalls fileCalls m line).foldl (·.assign E) m := by
  simp only [configLoadLine] at h
  simp only [configLineCalls]
  split_ifs at h ⊢ with hskip
  · cases h
    rfl
  · rcases hargs : sdsSplitArgs (sdsTrim line blanks) with _ | _ | _ | ⟨name, args⟩
    · rw [hargs] at h
      cases h
    · rw [hargs] at h
      cases h
      rfl
    · rw [hargs] at h
      cases h
    · rw [hargs] at h
      simp only at h ⊢
      split_ifs at h ⊢ with hinclude
      · cases args with
        | nil =>
          cases h
          rfl
        | cons path args =>
          simp only at h ⊢
          rcases hload : loadFile m (cString path) with halt | ⟨m₁, r⟩
          · rw [hload] at h
            cases h
          · rw [hload] at h
            cases h
            exact hfile _ _ _ _ hload
      · cases hrule : configGetRule m name with
        | none =>
          rw [hrule] at h
          cases h
          rfl
        | some rule =>
          rw [hrule] at h
          simp only at h
          rw [List.foldl_cons, List.foldl_nil, ConfigManager.assign, hrule]
          simp only
          cases hvalue : rule.kind.loadValue args with
          | error err' =>
            rw [hvalue] at h
            cases h
            rfl
          | ok value =>
            rw [hvalue] at h
            cases h
            rfl

theorem eq_foldl_configLinesCalls
    (hfile : ∀ m path m' r, loadFile m path = .ok (m', r) → m' = (fileCalls m path).foldl (·.assign E) m)
    {lines : List (List UInt8)} {r : ℤ} (h : configLoadLines E loadFile m lines = .ok (m', r)) :
    m' = (configLinesCalls E loadFile fileCalls m lines).foldl (·.assign E) m := by
  induction lines generalizing m with
  | nil =>
    cases h
    rfl
  | cons line lines ih =>
    rw [configLoadLines] at h
    rw [configLinesCalls, List.foldl_append]
    rcases hline : configLoadLine E loadFile m line with halt | ⟨m₁, _ | err⟩
    · rw [hline] at h
      cases h
    · rw [hline] at h
      rw [← eq_foldl_configLineCalls hfile hline]
      exact ih h
    · rw [hline] at h
      cases h
      exact eq_foldl_configLineCalls hfile hline

/-- **Loading a text** does what its calls do. -/
theorem eq_foldl_configStringCalls {depth : ℕ} {str : List UInt8} {r : ℤ}
    (h : configLoadString E depth m str = .ok (m', r)) :
    m' = (configStringCalls E depth m str).foldl (·.assign E) m := by
  induction depth generalizing m m' str r with
  | zero => cases h
  | succ depth ih =>
    have hfit := linesFit_of_configLoadString h
    rw [configLoadString_succ _ _ _ hfit] at h
    simp only [configStringCalls, sdsSplitLen_newline hfit]
    refine eq_foldl_configLinesCalls (fun m path m' r hfile ↦ ?_) h
    rw [configLoadFile] at hfile
    cases htext : E.files path with
    | none =>
      rw [htext] at hfile
      cases hfile
    | some text =>
      rw [htext] at hfile
      exact ih hfile

end Calls

/-! ## What `config_load_argv` is for -/

/-- An option with its values, `--k v1 ... vn`. -/
def groupArgv (g : Assignment) : List (List UInt8) := (45 :: 45 :: g.1) :: g.2

/-- Rules load the values of their options, in order, up to the first failure: the rules, what is returned,
and the calls. -/
def loadGroups (E : ConfigEnv) : ConfigManager → List Assignment → ConfigManager × ℤ × List Assignment
  | m, [] => (m, 1, [])
  | m, g :: gs =>
    match configGetRule m g.1 with
    | none => (m, 0, [])
    | some rule =>
      match rule.kind.loadValue g.2 with
      | .error _ => (m, 0, [g])
      | .ok value =>
        let r := loadGroups E (m.set g.1 { rule with value := rule.kind.setValue E rule.value value }) gs
        (r.1, r.2.1, g :: r.2.2)

/-- The name of a rule that needs no quotes, and values that are no options. -/
structure IsGroup (m : ConfigManager) (g : Assignment) : Prop where
  registered : (configGetRule m g.1).isSome = true
  not_empty : g.1 ≠ []
  not_include : g.1 ≠ includeBytes
  not_comment : g.1.head? ≠ some 35
  name : ∀ c ∈ g.1, isspace c = false ∧ c ≠ 34 ∧ c ≠ 39 ∧ c ≠ 0
  values : ∀ v ∈ g.2, 0 ∉ v ∧ ¬[45, 45] <+: v

/-! ## The text -/

/-- The line of an option, as it is put together. -/
def groupLine (g : Assignment) : List UInt8 := g.1 ++ 32 :: g.2.flatMap fun v ↦ sdsCatrepr [] v ++ [32]

/-- A space in front of each value and one at the end, instead of one behind each. -/
theorem groupLine_eq (g : Assignment) : groupLine g = g.1 ++ quotedArgs g.2 ++ [32] := by
  have hspace : ∀ vs : List (List UInt8),
      32 :: vs.flatMap (fun v ↦ sdsCatrepr [] v ++ [32]) = quotedArgs vs ++ [32] := by
    intro vs
    induction vs with
    | nil => rfl
    | cons v vs ih =>
      rw [quotedArgs_cons, List.flatMap_cons, List.append_assoc, List.singleton_append, ih,
        List.cons_append, List.append_assoc]
  rw [groupLine, hspace, List.append_assoc]

theorem configArgvText_values {vs : List (List UInt8)} (hvs : ∀ v ∈ vs, ¬[45, 45] <+: v)
    (argv : List (List UInt8)) (conf : List UInt8) :
    configArgvText (vs ++ argv) conf =
      configArgvText argv (conf ++ vs.flatMap fun v ↦ sdsCatrepr [] v ++ [32]) := by
  induction vs generalizing conf with
  | nil => rw [List.flatMap_nil, List.append_nil, List.nil_append]
  | cons v vs ih =>
    rw [List.forall_mem_cons] at hvs
    have hvalue : ¬(v.headD 0 = 45 ∧ v.tail.headD 0 = 45) := by
      rintro ⟨h, h'⟩
      refine hvs.1 ?_
      cases v with
      | nil => exact absurd h (by decide)
      | cons a v =>
        cases v with
        | nil =>
          have h0 : (0 : UInt8) = 45 := h'
          exact absurd h0 (by decide)
        | cons b v =>
          obtain rfl : a = 45 := h
          obtain rfl : b = 45 := h'
          exact ⟨v, rfl⟩
    rw [List.cons_append, configArgvText, if_neg hvalue, ih hvs.2, sdsCatrepr_append, List.flatMap_cons]
    simp only [List.append_assoc]

/-- The lines are put behind one another, with newlines between them. -/
theorem configArgvText_groups {m : ConfigManager} {gs : List Assignment} (hgs : ∀ g ∈ gs, IsGroup m g)
    {conf : List UInt8} (hconf : conf ≠ []) :
    configArgvText (gs.flatMap groupArgv) conf = conf ++ gs.flatMap fun g ↦ 10 :: groupLine g := by
  induction gs generalizing conf with
  | nil => rw [List.flatMap_nil, List.flatMap_nil, configArgvText, List.append_nil]
  | cons g gs ih =>
    rw [List.forall_mem_cons] at hgs
    have hlength : conf.length ≠ 0 := fun h ↦ hconf (List.length_eq_zero_iff.mp h)
    have hvalues : ∀ v ∈ g.2, ¬[45, 45] <+: v := fun v hv ↦ (hgs.1.values v hv).2
    rw [List.flatMap_cons, groupArgv, List.cons_append, configArgvText, if_pos ⟨rfl, rfl⟩, if_pos hlength,
      configArgvText_values hvalues, ih hgs.2 (by simp), List.flatMap_cons, groupLine]
    simp only [List.drop_succ_cons, List.drop_zero, List.append_assoc, List.nil_append,
      List.cons_append]

theorem configArgvText_cons {m : ConfigManager} {g : Assignment} {gs : List Assignment} (hg : IsGroup m g)
    (hgs : ∀ g ∈ gs, IsGroup m g) :
    configArgvText ((g :: gs).flatMap groupArgv) [] = [10].intercalate ((g :: gs).map groupLine) := by
  have hvalues : ∀ v ∈ g.2, ¬[45, 45] <+: v := fun v hv ↦ (hg.values v hv).2
  have hfirst : configArgvText ((g :: gs).flatMap groupArgv) [] =
      configArgvText (gs.flatMap groupArgv) (groupLine g) := by
    rw [List.flatMap_cons, groupArgv, List.cons_append, configArgvText, if_pos ⟨rfl, rfl⟩,
      configArgvText_values hvalues, groupLine]
    simp
  rw [hfirst, configArgvText_groups hgs (by simp [groupLine])]
  clear hfirst hvalues hg hgs
  induction gs generalizing g with
  | nil => simp
  | cons g' gs ih =>
    rw [List.map_cons, List.map_cons, List.intercalate_cons_cons, ← List.map_cons, ← ih, List.flatMap_cons]
    simp

/-! ## A line -/

section Line

variable {m : ConfigManager} {g : Assignment}

theorem IsGroup.isPlain (h : IsGroup m g) : IsPlain g.1 := by
  obtain ⟨c, k, hk⟩ := List.exists_cons_of_ne_nil h.not_empty
  have hc := h.name c (by rw [hk]; exact List.mem_cons_self)
  refine ⟨by rw [hk, List.head?_cons, Option.map_some, hc.1], fun d hd hspecial ↦ ?_⟩
  obtain ⟨hspace, hdouble, hsingle, hnul⟩ := h.name d hd
  obtain rfl | rfl | rfl | rfl | rfl | rfl | rfl := hspecial
  · exact absurd hspace (by decide)
  · exact absurd hspace (by decide)
  · exact absurd hspace (by decide)
  · exact absurd hspace (by decide)
  · exact hdouble rfl
  · exact hsingle rfl
  · exact hnul rfl

/-- There are no newlines in what can be printed. -/
theorem IsGroup.newline_notMem (h : IsGroup m g) : 10 ∉ groupLine g := by
  rw [groupLine_eq, List.mem_append, List.mem_append, List.mem_singleton]
  rintro ((hname | hquoted) | hspace)
  · exact h.isPlain.not_special 10 hname (by decide)
  · exact absurd (isprint_of_mem_quotedArgs hquoted) (by decide)
  · exact absurd hspace (by decide)

/-- The space at the end is trimmed. -/
theorem IsGroup.sdsTrim_groupLine (h : IsGroup m g) :
    sdsTrim (groupLine g) blanks = g.1 ++ quotedArgs g.2 := by
  rw [groupLine_eq, sdsTrim, List.append_assoc, dropWhile_plain h.isPlain, ← List.append_assoc,
    List.rdropWhile_concat_pos _ _ _ (by decide)]
  cases hvs : g.2 using List.reverseRecOn with
  | nil =>
    have htrim := rdropWhile_plain h.isPlain []
    rw [List.nil_append] at htrim
    rw [quotedArgs, List.flatMap_nil, List.append_nil, htrim]
  | append_singleton vs v =>
    have hquote : g.1 ++ quotedArgs (vs ++ [v]) =
        g.1 ++ quotedArgs vs ++ 32 :: 34 :: v.flatMap sdsReprByte ++ [34] := by
      simp [quotedArgs, sdsCatrepr]
    rw [hquote, List.rdropWhile_concat_neg _ _ _ (by decide)]

/-- **The line of an option** has the name and the values for its arguments. -/
theorem IsGroup.lineArgs (h : IsGroup m g) (hcount : g.2.length + 1 < 2 ^ 31) :
    LineArgs (groupLine g) (g.1 :: g.2) := by
  obtain ⟨c, k, hk⟩ := List.exists_cons_of_ne_nil h.not_empty
  have hhead : (sdsTrim (groupLine g) blanks).headD 0 = c := by
    rw [h.sdsTrim_groupLine, hk]
    rfl
  refine ⟨?_, ?_, ?_, ?_⟩
  · rw [hhead]
    rintro rfl
    exact h.not_comment (by rw [hk]; rfl)
  · rw [hhead]
    exact (h.name c (by rw [hk]; exact List.mem_cons_self)).2.2.2
  · rw [h.sdsTrim_groupLine]
    exact sdsSplitArgs_eq_some_iff.mpr ⟨sdsArgs_plain_quotedArgs h.isPlain g.2, hcount⟩
  · have hnul := zero_notMem_of_isPlain h.isPlain
    rw [List.headD_cons, strEq, decide_eq_false_iff_not, cString_eq_self hnul]
    exact h.not_include

end Line

/-! ## All lines -/

section Call

variable (E : ConfigEnv)
  (loadFile : ConfigManager → List UInt8 → Except ConfigHalt (ConfigManager × ℤ))
  (fileCalls : ConfigManager → List UInt8 → List Assignment)
  {m : ConfigManager} {line name : List UInt8} {args : List (List UInt8)}

theorem LineArgs.not_skip (h : LineArgs line (name :: args)) :
    ¬((sdsTrim line blanks).headD 0 = 35 ∨ (sdsTrim line blanks).headD 0 = 0) :=
  not_or.mpr ⟨h.not_comment, h.not_empty⟩

theorem LineArgs.name_ne_include (h : LineArgs line (name :: args)) : ¬strEq name includeBytes = true :=
  Bool.eq_false_iff.mp h.not_include

/-- A line with arguments is loaded by the rule of the first. -/
theorem configLoadLine_of_lineArgs (h : LineArgs line (name :: args)) {rule : ConfigRule}
    (hrule : configGetRule m name = some rule) {value : rule.kind.Value}
    (hvalue : rule.kind.loadValue args = .ok value) :
    configLoadLine E loadFile m line =
      .ok (m.set name { rule with value := rule.kind.setValue E rule.value value }, none) := by
  simp only [configLoadLine, if_neg h.not_skip, h.split_eq, if_neg h.name_ne_include, hrule, hvalue]

theorem configLoadLine_of_lineArgs_error (h : LineArgs line (name :: args)) {rule : ConfigRule}
    (hrule : configGetRule m name = some rule) {err : String}
    (hvalue : rule.kind.loadValue args = .error err) :
    configLoadLine E loadFile m line = .ok (m, some err) := by
  simp only [configLoadLine, if_neg h.not_skip, h.split_eq, if_neg h.name_ne_include, hrule, hvalue]

/-- It makes one call. -/
theorem configLineCalls_of_lineArgs (h : LineArgs line (name :: args)) {rule : ConfigRule}
    (hrule : configGetRule m name = some rule) : configLineCalls fileCalls m line = [(name, args)] := by
  simp only [configLineCalls, if_neg h.not_skip, h.split_eq, if_neg h.name_ne_include, hrule]

end Call

/-- A rule stays under its name. -/
theorem IsGroup.sameKinds {m m' : ConfigManager} {g : Assignment} (h : IsGroup m g) (hm : SameKinds m m') :
    IsGroup m' g := by
  have hrule := congrArg Option.isSome (hm g.1)
  rw [Option.isSome_map, Option.isSome_map] at hrule
  exact ⟨hrule.trans h.registered, h.not_empty, h.not_include, h.not_comment, h.name, h.values⟩

/-- **Loading the lines of options.** -/
theorem configLoadLines_groups (E : ConfigEnv)
    (loadFile : ConfigManager → List UInt8 → Except ConfigHalt (ConfigManager × ℤ))
    (fileCalls : ConfigManager → List UInt8 → List Assignment) {m : ConfigManager} {gs : List Assignment}
    (hgs : ∀ g ∈ gs, IsGroup m g) (hcount : ∀ g ∈ gs, g.2.length + 1 < 2 ^ 31) :
    configLoadLines E loadFile m (gs.map groupLine) =
        .ok ((loadGroups E m gs).1, (loadGroups E m gs).2.1) ∧
      configLinesCalls E loadFile fileCalls m (gs.map groupLine) = (loadGroups E m gs).2.2 := by
  induction gs generalizing m with
  | nil => exact ⟨rfl, rfl⟩
  | cons g gs ih =>
    rw [List.forall_mem_cons] at hgs hcount
    obtain ⟨rule, hrule⟩ := Option.isSome_iff_exists.mp hgs.1.registered
    have hargs := hgs.1.lineArgs hcount.1
    have hcalls := configLineCalls_of_lineArgs fileCalls hargs hrule
    rw [List.map_cons, configLoadLines, configLinesCalls, hcalls]
    cases hvalue : rule.kind.loadValue g.2 with
    | error err =>
      have hline := configLoadLine_of_lineArgs_error E loadFile hargs hrule hvalue
      simp only [hline, loadGroups, hrule, hvalue]
      exact ⟨trivial, rfl⟩
    | ok value =>
      have hline := configLoadLine_of_lineArgs E loadFile hargs hrule hvalue
      have hkinds := sameKinds_set hrule (rule.kind.setValue E rule.value value)
      have hrest := ih (fun g' hg' ↦ (hgs.2 g' hg').sameKinds hkinds) hcount.2
      simp only [hline, loadGroups, hrule, hvalue]
      exact ⟨hrest.1, congrArg (g :: ·) hrest.2⟩

/-- The arguments are C strings. -/
theorem map_cString_groups {m : ConfigManager} {gs : List Assignment} (hgs : ∀ g ∈ gs, IsGroup m g) :
    (gs.flatMap groupArgv).map cString = gs.flatMap groupArgv := by
  have hnul : ∀ arg ∈ gs.flatMap groupArgv, cString arg = id arg := by
    intro arg harg
    obtain ⟨g, hg, hmem⟩ := List.mem_flatMap.mp harg
    refine cString_eq_self ?_
    obtain rfl | hvalue := List.mem_cons.mp hmem
    · rw [List.mem_cons, List.mem_cons]
      rintro (h | h | h)
      · exact absurd h (by decide)
      · exact absurd h (by decide)
      · exact zero_notMem_of_isPlain (hgs g hg).isPlain h
    · exact ((hgs g hg).values arg hvalue).1
  rw [List.map_congr_left hnul, List.map_id]

/-- The values of an option are fewer than all arguments. -/
theorem length_values_lt {gs : List Assignment} {argc : ℕ} (hargc : (gs.flatMap groupArgv).length < argc) :
    ∀ g ∈ gs, g.2.length + 1 < argc := by
  intro g hg
  have hsub : (groupArgv g).Sublist (gs.flatMap groupArgv) := by
    rw [List.flatMap_def]
    exact List.sublist_flatten_of_mem (List.mem_map_of_mem hg)
  exact lt_of_le_of_lt hsub.length_le hargc

section Lines

variable {m : ConfigManager} {gs : List Assignment} (hgs : ∀ g ∈ gs, IsGroup m g)

include hgs in
/-- The lines of the text are those of the options. -/
theorem splitChar_configArgvText (hne : gs ≠ []) :
    splitChar 10 [] (configArgvText (gs.flatMap groupArgv) []) = gs.map groupLine := by
  obtain ⟨g, gs, rfl⟩ := List.exists_cons_of_ne_nil hne
  have hforall := List.forall_mem_cons.mp hgs
  have hnewline : ∀ line ∈ (g :: gs).map groupLine, 10 ∉ line := by
    intro line hline
    obtain ⟨g', hg', rfl⟩ := List.mem_map.mp hline
    exact (hgs g' hg').newline_notMem
  rw [configArgvText_cons hforall.1 hforall.2]
  exact splitChar_newline (List.cons_ne_nil (groupLine g) (gs.map groupLine)) hnewline

theorem groupLine_ne_nil (g : Assignment) : groupLine g ≠ [] := by
  rw [groupLine]
  exact List.append_ne_nil_of_right_ne_nil _ (List.cons_ne_nil _ _)

include hgs in
/-- The lines can be counted if there are fewer options than slots. No line is empty, the last one neither. -/
theorem linesFit_configArgvText :
    LinesFit (configArgvText (gs.flatMap groupArgv) []) ↔ gs.length < maxSlots := by
  by_cases hne : gs = []
  · subst hne
    exact iff_of_true linesFit_nil (by decide)
  · rw [linesFit_iff, splitChar_configArgvText hgs hne, List.length_map]
    refine or_iff_left ?_
    rintro ⟨-, hlast⟩
    rw [List.getLastD_eq_getLast?, List.getLast?_eq_some_getLast (by simpa using hne), Option.getD_some,
      List.getLast_map] at hlast
    exact groupLine_ne_nil _ hlast

end Lines

/-- The vector is loaded option by option: each rule is called once, with exactly the values, up to the first
failure. -/
def LoadsGroups (E : ConfigEnv) (depth : ℕ) (m : ConfigManager) (gs : List Assignment) : Prop :=
  configLoadArgv E depth m (gs.flatMap groupArgv) = .ok ((loadGroups E m gs).1, (loadGroups E m gs).2.1) ∧
    configArgvCalls E depth m (gs.flatMap groupArgv) = (loadGroups E m gs).2.2

/-- **Arguments of the program.** An argument vector of options with their values, as many as can be counted, is
loaded option by option if and only if there are slots for the lines of the options. -/
theorem configLoadArgv_groups {E : ConfigEnv} {m : ConfigManager} {gs : List Assignment}
    (hgs : ∀ g ∈ gs, IsGroup m g) (hargc : (gs.flatMap groupArgv).length < 2 ^ 31) (depth : ℕ) :
    LoadsGroups E (depth + 1) m gs ↔ gs.length < maxSlots := by
  rw [← linesFit_configArgvText hgs, LoadsGroups, configLoadArgv, configArgvCalls, map_cString_groups hgs]
  refine ⟨fun h ↦ linesFit_of_configLoadString h.1, fun hfit ↦ ?_⟩
  simp only [configLoadString_succ _ _ _ hfit, configStringCalls, sdsSplitLen_newline hfit]
  by_cases hne : gs = []
  · subst hne
    exact ⟨rfl, rfl⟩
  · have hlines : textLines (configArgvText (gs.flatMap groupArgv) []) = gs.map groupLine := by
      rw [← splitChar_configArgvText hgs hne]
      refine textLines_of_ne fun hnil ↦ ?_
      have hsplit := splitChar_configArgvText hgs hne
      obtain ⟨g, gs, rfl⟩ := List.exists_cons_of_ne_nil hne
      rw [hnil] at hsplit
      exact groupLine_ne_nil g (List.cons.inj hsplit).1.symm
    rw [hlines]
    exact configLoadLines_groups E _ _ hgs (length_values_lt hargc)

/-- A rule for any strings. -/
def stringsRule (value : Option (List (List UInt8))) : ConfigRule where
  kind := .sdsArray
  disableWrite := false
  disableSave := false
  value := value
  checkValue := none
  defaultValue := none

/-- `--k`, a value with a space and an empty one. -/
theorem configLoadArgv_groups_two :
    LoadsGroups configEnvNoFiles 1 ⟨[([107], stringsRule none)]⟩ [([107], [[97, 32, 98], []])] := by
  have hgroup : IsGroup ⟨[([107], stringsRule none)]⟩ ([107], [[97, 32, 98], []]) :=
    ⟨rfl, by decide, by decide, by decide, List.forall_mem_singleton.mpr (by decide), by decide⟩
  exact (configLoadArgv_groups (List.forall_mem_singleton.mpr hgroup) (by decide) 0).mpr (by decide)

/-- 5 · 2²⁸ options `--k`. -/
theorem not_configLoadArgv_groups :
    ¬∀ (E : ConfigEnv) (m : ConfigManager) (gs : List Assignment), (∀ g ∈ gs, IsGroup m g) →
      (gs.flatMap groupArgv).length < 2 ^ 31 → ∀ depth, LoadsGroups E (depth + 1) m gs := by
  intro h
  have hgroups : ∀ g ∈ List.replicate maxSlots (([107], []) : Assignment),
      IsGroup ⟨[([107], stringsRule none)]⟩ g := by
    intro g hg
    obtain rfl := List.eq_of_mem_replicate hg
    exact ⟨rfl, by decide, by decide, by decide, List.forall_mem_singleton.mpr (by decide), by decide⟩
  have hargc : ((List.replicate maxSlots (([107], []) : Assignment)).flatMap groupArgv).length < 2 ^ 31 := by
    rw [List.length_flatMap, List.map_replicate, List.sum_replicate_nat]
    decide
  have hload := (h configEnvNoFiles ⟨[([107], stringsRule none)]⟩ _ hgroups hargc 0).1
  rw [configLoadArgv, map_cString_groups hgroups] at hload
  have hfit := (linesFit_configArgvText hgroups).mp (linesFit_of_configLoadString hload)
  rw [List.length_replicate] at hfit
  exact absurd hfit (lt_irrefl _)

end LatteC
