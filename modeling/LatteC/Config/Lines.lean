import LatteC.Config.Assign
import LatteC.Sds.CString

/-!
# Line by line

What `_config_load_string` carries from one line to the next are the values of the rules and nothing else.
So loading two texts with a newline between them is loading the first and, if that went well, the second,
and a load that fails has done what the lines in front of the failing one do. What can go wrong with the two
texts together is that their lines are too many to be counted.

The first argument of a line is read as soon as the line is neither empty nor a comment. Empty lines are
found by what `sds_trim` leaves of them, with the four blanks that are listed there, while `sds_split_args`
skips all white space. Lines of vertical tabs and form feeds are the difference.
-/

namespace LatteC

/-! ## Lines in order -/

section Order

variable {E : ConfigEnv} {loadFile : ConfigManager → List UInt8 → Except ConfigHalt (ConfigManager × ℤ)}

/-- What is done after a load that returned: nothing if it failed. -/
def thenLoad (load : ConfigManager → Except ConfigHalt (ConfigManager × ℤ)) (r : ConfigManager × ℤ) :
    Except ConfigHalt (ConfigManager × ℤ) :=
  if r.2 = 1 then load r.1 else .ok r

theorem configLoadLines_append_eq (lines more : List (List UInt8)) (m : ConfigManager) :
    configLoadLines E loadFile m (lines ++ more) =
      (configLoadLines E loadFile m lines).bind
        (thenLoad fun m ↦ configLoadLines E loadFile m more) := by
  induction lines generalizing m with
  | nil => rfl
  | cons line lines ih =>
    rw [List.cons_append, configLoadLines, configLoadLines]
    rcases configLoadLine E loadFile m line with halt | ⟨m', _ | err⟩
    · rfl
    · exact ih m'
    · rfl

theorem configLoadLines_empty (lines : List (List UInt8)) (m : ConfigManager) :
    configLoadLines E loadFile m ([] :: lines) = configLoadLines E loadFile m lines := rfl

end Order

theorem textLines_of_ne {text : List UInt8} (h : text ≠ []) : textLines text = splitChar 10 [] text := if_neg h

/-- A text has the lines between its newlines. An empty line more does not count. -/
theorem configLoadString_splitChar (E : ConfigEnv) (depth : ℕ) (m : ConfigManager) {text : List UInt8}
    (hfit : LinesFit text) : configLoadString E (depth + 1) m text =
      configLoadLines E (configLoadFile E depth) m (splitChar 10 [] text) := by
  rw [configLoadString_succ _ _ _ hfit]
  cases text with
  | nil => rfl
  | cons c text => rw [textLines_of_ne (List.cons_ne_nil c text)]

/-- **Two texts.** -/
theorem configLoadString_append (E : ConfigEnv) (depth : ℕ) (m : ConfigManager) {a b : List UInt8}
    (hfit : LinesFit (a ++ 10 :: b)) :
    configLoadString E depth m (a ++ 10 :: b) =
      (configLoadString E depth m a).bind (thenLoad fun m ↦ configLoadString E depth m b) := by
  cases depth with
  | zero => rfl
  | succ depth =>
    obtain ⟨ha, hb⟩ := linesFit_of_append hfit
    simp only [configLoadString_splitChar _ _ _ ha, configLoadString_splitChar _ _ _ hb,
      configLoadString_splitChar _ _ _ hfit]
    rw [splitChar_append_cons, configLoadLines_append_eq]

/-- A load that returns has counted its lines. -/
theorem linesFit_of_configLoadString {E : ConfigEnv} {depth : ℕ} {m : ConfigManager} {text : List UInt8}
    {r : ConfigManager × ℤ} (h : configLoadString E depth m text = .ok r) : LinesFit text := by
  by_contra hfit
  cases depth with
  | zero => cases h
  | succ depth =>
    rw [configLoadString_of_not_linesFit _ _ _ hfit] at h
    cases h

/-! ## A load that fails -/

/-- The line names a file to include, or should. -/
def IsInclude (line : List UInt8) : Prop :=
  ∃ name args, lineAssign line = some (name, args) ∧ strEq name includeBytes = true

/-- The text has no include lines. -/
def IncludeFree (text : List UInt8) : Prop := ∀ line ∈ textLines text, ¬IsInclude line

section Fails

variable {E : ConfigEnv} {loadFile : ConfigManager → List UInt8 → Except ConfigHalt (ConfigManager × ℤ)}
  {m m' : ConfigManager}

theorem isInclude_of_lineEffect {line path : List UInt8} (h : lineEffect m line = .incl path) :
    IsInclude line := by
  simp only [lineEffect] at h
  split_ifs at h with hskip
  rcases hargs : sdsSplitArgs (sdsTrim line blanks) with _ | _ | _ | ⟨name, args⟩
  · rw [hargs] at h
    cases h
  · rw [hargs] at h
    cases h
  · rw [hargs] at h
    cases h
  · rw [hargs] at h
    simp only at h
    split_ifs at h with hinclude
    · refine ⟨name, args, ?_, hinclude⟩
      simp only [lineAssign, if_neg hskip, hargs]
    · cases hrule : configGetRule m name with
      | none =>
        rw [hrule] at h
        cases h
      | some rule =>
        rw [hrule] at h
        simp only at h
        split_ifs at h

/-- A line that includes nothing and fails leaves the rules as they are. -/
theorem eq_of_configLoadLine_some {line : List UInt8} (hline : ¬IsInclude line) {err : String}
    (h : configLoadLine E loadFile m line = .ok (m', some err)) : m' = m := by
  have hturn := configLoadLine_eq E loadFile m line
  cases heff : lineEffect m line with
  | pass =>
    rw [heff] at hturn
    obtain ⟨m'', -, hpass⟩ := hturn
    rw [hpass] at h
    cases h
  | stop =>
    rw [heff] at hturn
    obtain ⟨err', hstop⟩ := hturn
    rw [hstop] at h
    cases h
    rfl
  | halts halt =>
    rw [heff] at hturn
    rw [hturn] at h
    cases h
  | incl path => exact absurd (isInclude_of_lineEffect heff) hline

/-- **Failing.** One line is the first that fails. What has been done is what the lines in front of it do. -/
theorem exists_of_configLoadLines_zero {lines : List (List UInt8)} (hlines : ∀ line ∈ lines, ¬IsInclude line)
    (h : configLoadLines E loadFile m lines = .ok (m', 0)) :
    ∃ front line back, lines = front ++ line :: back ∧
      configLoadLines E loadFile m front = .ok (m', 1) ∧
        configLoadLines E loadFile m' [line] = .ok (m', 0) := by
  induction lines generalizing m with
  | nil => cases h
  | cons line lines ih =>
    rw [List.forall_mem_cons] at hlines
    rw [configLoadLines] at h
    rcases hline : configLoadLine E loadFile m line with halt | ⟨m₁, _ | err⟩
    · rw [hline] at h
      cases h
    · rw [hline] at h
      obtain ⟨front, failing, back, rfl, hfront, hfails⟩ := ih hlines.2 h
      refine ⟨line :: front, failing, back, rfl, ?_, hfails⟩
      rw [configLoadLines, hline]
      exact hfront
    · obtain rfl := eq_of_configLoadLine_some hlines.1 hline
      rw [hline] at h
      cases h
      refine ⟨[], line, lines, rfl, rfl, ?_⟩
      rw [configLoadLines, hline]

end Fails

/-- Lines with newlines between them. -/
theorem splitChar_newline {lines : List (List UInt8)} (hne : lines ≠ []) (hlines : ∀ line ∈ lines, 10 ∉ line) :
    splitChar 10 [] ([10].intercalate lines) = lines := by
  cases lines with
  | nil => exact absurd rfl hne
  | cons line lines =>
    rw [List.forall_mem_cons] at hlines
    exact splitChar_intercalate hlines.1 hlines.2

/-- The text of some lines. -/
theorem configLoadString_intercalate (E : ConfigEnv) (depth : ℕ) (m : ConfigManager)
    {lines : List (List UInt8)} (hlines : ∀ line ∈ lines, 10 ∉ line) (hlength : lines.length < maxSlots) :
    configLoadString E (depth + 1) m ([10].intercalate lines) =
      configLoadLines E (configLoadFile E depth) m lines := by
  cases lines with
  | nil => rfl
  | cons line lines =>
    have hsplit := splitChar_newline (List.cons_ne_nil line lines) hlines
    have hfit : LinesFit ([10].intercalate (line :: lines)) := linesFit_iff.mpr (Or.inl (by rwa [hsplit]))
    rw [configLoadString_splitChar _ _ _ hfit, hsplit]

theorem notMem_of_mem_textLines {text line : List UInt8} (h : line ∈ textLines text) : 10 ∉ line := by
  cases text with
  | nil => exact absurd h List.not_mem_nil
  | cons c text =>
    rw [textLines_of_ne (List.cons_ne_nil c text)] at h
    exact notMem_of_mem_splitChar List.not_mem_nil h

/-- The load fails at a line, with the rules as loading the lines in front of it alone leaves them. -/
def FailsAtLine (E : ConfigEnv) (depth : ℕ) (m m' : ConfigManager) (text : List UInt8) : Prop :=
  ∃ front line back, textLines text = front ++ line :: back ∧
    configLoadString E depth m ([10].intercalate front) = .ok (m', 1) ∧
      configLoadString E depth m' line = .ok (m', 0)

theorem failsAtLine_of_zero {E : ConfigEnv} {depth : ℕ} {m m' : ConfigManager} {text : List UInt8}
    (hfree : IncludeFree text) (h : configLoadString E depth m text = .ok (m', 0)) :
    FailsAtLine E depth m m' text := by
  cases depth with
  | zero => cases h
  | succ depth =>
    have hfit := linesFit_of_configLoadString h
    rw [configLoadString_succ _ _ _ hfit] at h
    obtain ⟨front, line, back, hsplit, hfront, hline⟩ := exists_of_configLoadLines_zero hfree h
    have hnewline : ∀ l ∈ front ++ line :: back, 10 ∉ l := by
      rw [← hsplit]
      exact fun l hl ↦ notMem_of_mem_textLines hl
    rw [List.forall_mem_append, List.forall_mem_cons] at hnewline
    have hlength : front.length < maxSlots := by
      have hle := length_textLines_le hfit
      rw [hsplit, List.length_append, List.length_cons] at hle
      omega
    refine ⟨front, line, back, hsplit, ?_, ?_⟩
    · rw [configLoadString_intercalate E depth m hnewline.1 hlength, hfront]
    · rw [configLoadString_splitChar _ _ _ (linesFit_of_notMem hnewline.2.1), splitChar_of_notMem hnewline.2.1,
        List.nil_append, hline]

/-- **Texts of lines.** Two texts with a newline between them are loaded one after the other, if their lines can
be counted; if they cannot, and loading one after the other returns, then loading both together does not return
what that returns. And a load that fails at a line has done what the lines in front of it do. -/
theorem configLoadString_lines (E : ConfigEnv) (depth : ℕ) (m : ConfigManager) :
    (∀ a b, (LinesFit (a ++ 10 :: b) → configLoadString E depth m (a ++ 10 :: b) =
        (configLoadString E depth m a).bind (thenLoad fun m ↦ configLoadString E depth m b)) ∧
      ∀ r, (configLoadString E depth m a).bind (thenLoad fun m ↦ configLoadString E depth m b) = .ok r →
        (configLoadString E depth m (a ++ 10 :: b) = .ok r ↔ LinesFit (a ++ 10 :: b))) ∧
    ∀ text m', IncludeFree text → configLoadString E depth m text = .ok (m', 0) →
      FailsAtLine E depth m m' text := by
  refine ⟨fun a b ↦ ⟨configLoadString_append E depth m, fun r hr ↦ ?_⟩, fun _ _ hfree h ↦
    failsAtLine_of_zero hfree h⟩
  exact ⟨linesFit_of_configLoadString, fun hfit ↦ (configLoadString_append E depth m hfit).trans hr⟩

/-- `k c`, and an option that is not known. -/
def unknownText : List UInt8 := [107, 32, 99] ++ 10 :: [120]

/-- A rule `k` for an array of strings. -/
def arrayManager (value : List (List UInt8)) : ConfigManager :=
  ⟨[([107], { sdsArrayRule with value := some value })]⟩

/-- The rule has been loaded. -/
theorem configLoadString_lines_unknown :
    configLoadString configEnvNoFiles 1 (arrayManager []) unknownText = .ok (arrayManager [[99]], 0) ∧
      FailsAtLine configEnvNoFiles 1 (arrayManager []) (arrayManager [[99]]) unknownText := by
  have hlines := configLoadString_lines configEnvNoFiles 1 (arrayManager [])
  have hfit : LinesFit unknownText := linesFit_of_count_lt (by decide)
  have hload : configLoadString configEnvNoFiles 1 (arrayManager []) unknownText =
      .ok (arrayManager [[99]], 0) := ((hlines.1 [107, 32, 99] [120]).2 _ rfl).mpr hfit
  refine ⟨hload, hlines.2 unknownText _ ?_ hload⟩
  have htext : textLines unknownText = [[107, 32, 99], [120]] := rfl
  rw [IncludeFree, htext, List.forall_mem_cons, List.forall_mem_singleton]
  refine ⟨?_, ?_⟩
  all_goals
    rintro ⟨name, args, hassign, hinclude⟩
    obtain ⟨rfl, -⟩ := Prod.mk.inj (Option.some.inj hassign)
    cases hinclude

/-- Empty lines are passed over. -/
theorem configLoadLines_replicate (E : ConfigEnv)
    (loadFile : ConfigManager → List UInt8 → Except ConfigHalt (ConfigManager × ℤ)) (m : ConfigManager)
    (n : ℕ) : configLoadLines E loadFile m (List.replicate n []) = .ok (m, 1) := by
  induction n with
  | zero => rfl
  | succ n ih => rw [List.replicate_succ, configLoadLines_empty, ih]

/-- Newlines only. There can be 5 · 2²⁸ - 1. -/
theorem configLoadString_replicate (E : ConfigEnv) (depth : ℕ) (m : ConfigManager) {n : ℕ}
    (h : n + 1 < maxSlots) : configLoadString E (depth + 1) m (List.replicate n 10) = .ok (m, 1) := by
  have hfit : LinesFit (List.replicate n 10) := linesFit_of_count_lt (by rwa [List.count_replicate_self])
  rw [configLoadString_splitChar _ _ _ hfit, splitChar_replicate, configLoadLines_replicate]

/-- Two texts of newlines, each of which is loaded, while the two together are not. -/
theorem not_configLoadString_lines :
    ¬∀ (E : ConfigEnv) (depth : ℕ) (m : ConfigManager) (a b : List UInt8),
      configLoadString E depth m (a ++ 10 :: b) =
        (configLoadString E depth m a).bind (thenLoad fun m ↦ configLoadString E depth m b) := by
  intro h
  have htogether := h configEnvNoFiles 1 ⟨[]⟩ (List.replicate (maxSlots - 2) 10) (List.replicate 1 10)
  rw [configLoadString_replicate _ _ _ (by decide)] at htogether
  have hsecond : (Except.ok (⟨[]⟩, 1) : Except ConfigHalt (ConfigManager × ℤ)).bind
      (thenLoad fun m ↦ configLoadString configEnvNoFiles 1 m (List.replicate 1 10)) = .ok (⟨[]⟩, 1) := rfl
  rw [hsecond] at htogether
  have hfit := linesFit_of_configLoadString htogether
  rw [linesFit_iff, length_splitChar, List.count_append, List.count_cons_self, List.count_replicate_self] at hfit
  have hcount : maxSlots - 2 + (List.count 10 (List.replicate 1 (10 : UInt8)) + 1) + 1 = maxSlots + 1 := by
    decide
  omega

/-! ## The first argument -/

/-- The loader reads `argv[0]` of the line: the line is neither empty nor a comment, and it has been split. -/
structure ReadsArgv (line : List UInt8) (argv : List (List UInt8)) : Prop where
  not_comment : (sdsTrim line blanks).headD 0 ≠ 35
  not_empty : (sdsTrim line blanks).headD 0 ≠ 0
  split_eq : sdsSplitArgs (sdsTrim line blanks) = some (some argv)

/-- There is a first argument when it is read. -/
def ArgvSafe (line : List UInt8) : Prop := ∀ argv, ReadsArgv line argv → 1 ≤ argv.length

/-- Behind its leading blanks the line has something, and white space only, up to a NUL. -/
def OnlyVertical (line : List UInt8) : Prop :=
  line.dropWhile (strchr blanks) ≠ [] ∧ ∀ c ∈ cString (line.dropWhile (strchr blanks)), isspace c = true

theorem sdsSplitArgs_eq_nil_iff (p : List UInt8) :
    sdsSplitArgs p = some (some []) ↔ ∀ c ∈ cString p, isspace c = true := by
  rw [sdsSplitArgs_eq_some_iff, sdsArgs, ← List.dropWhile_eq_nil_iff]
  cases hp : (cString p).dropWhile isspace with
  | nil => exact iff_of_true ⟨sdsArgsLoop_of_nil hp _, by decide⟩ rfl
  | cons c q =>
    refine iff_of_false (fun h ↦ ?_) (List.cons_ne_nil c q)
    rw [sdsArgsLoop_of_cons hp] at h
    obtain ⟨r, -, hrest⟩ := Option.bind_eq_some_iff.mp h.1
    obtain ⟨ts, -, hts⟩ := Option.map_eq_some_iff.mp hrest
    exact absurd hts (List.cons_ne_nil _ _)

/-- A blank is white space. -/
theorem isspace_of_strchr {c : UInt8} (h : strchr blanks c = true) (hc : c ≠ 0) : isspace c = true := by
  simp only [strchr, blanks, List.contains_eq_mem, List.mem_cons, List.not_mem_nil, or_false,
    Bool.or_eq_true, decide_eq_true_eq] at h
  obtain (rfl | rfl | rfl | rfl) | h := h
  · rfl
  · rfl
  · rfl
  · rfl
  · exact absurd h hc

/-- Trailing blanks do not matter for white space. -/
theorem isspace_cString_rdropWhile (p : List UInt8) :
    (∀ c ∈ cString (p.rdropWhile (strchr blanks)), isspace c = true) ↔ ∀ c ∈ cString p, isspace c = true := by
  induction p using List.reverseRecOn with
  | nil => rfl
  | append_singleton p x ih =>
    by_cases hx : strchr blanks x = true
    · rw [List.rdropWhile_concat_pos _ _ _ hx, ih]
      by_cases hnul : 0 ∈ p
      · rw [cString_append_of_mem hnul]
      · rw [cString_append_of_notMem hnul, cString_eq_self hnul, List.forall_mem_append]
        refine (and_iff_left fun c hc ↦ ?_).symm
        have hne : c ≠ 0 := fun h ↦ zero_notMem_cString [x] (h ▸ hc)
        obtain rfl : c = x := List.mem_singleton.mp ((List.takeWhile_prefix _).subset hc)
        exact isspace_of_strchr hx hne
    · rw [List.rdropWhile_concat_neg _ _ _ hx]

section Head

variable {line p : List UInt8} {c : UInt8}

theorem not_strchr_head (hp : line.dropWhile (strchr blanks) = c :: p) : ¬strchr blanks c = true := by
  have hhead := List.head?_dropWhile_not (strchr blanks) line
  rw [hp] at hhead
  simpa using hhead

/-- What `sds_trim` leaves starts with what is behind the leading blanks. -/
theorem headD_sdsTrim (hp : line.dropWhile (strchr blanks) = c :: p) :
    (sdsTrim line blanks).headD 0 = c := by
  rw [sdsTrim, hp]
  have hprefix := List.rdropWhile_prefix (strchr blanks) (c :: p)
  cases htrim : (c :: p).rdropWhile (strchr blanks) with
  | nil => exact absurd (List.rdropWhile_eq_nil_iff.mp htrim c List.mem_cons_self) (not_strchr_head hp)
  | cons d q =>
    rw [htrim] at hprefix
    exact (List.cons_prefix_cons.mp hprefix).1

end Head

/-- **One line.** The first argument is there, unless there is nothing but white space that is not blank. -/
theorem argvSafe_iff (line : List UInt8) : ArgvSafe line ↔ ¬OnlyVertical line := by
  have hsplit := sdsSplitArgs_eq_nil_iff (sdsTrim line blanks)
  rw [sdsTrim, isspace_cString_rdropWhile, ← sdsTrim] at hsplit
  constructor
  · rintro hsafe ⟨hne, hspace⟩
    obtain ⟨c, p, hp⟩ := List.exists_cons_of_ne_nil hne
    have hhead := headD_sdsTrim hp
    have hnul : c ≠ 0 := by
      rintro rfl
      exact not_strchr_head hp rfl
    have hcomment : c ≠ 35 := by
      rintro rfl
      rw [hp, cString_cons hnul, List.forall_mem_cons] at hspace
      exact absurd hspace.1 (by decide)
    have hlen := hsafe [] ⟨hhead ▸ hcomment, hhead ▸ hnul, hsplit.mpr hspace⟩
    exact absurd hlen (by decide)
  · intro hvertical argv hargv
    rw [Nat.one_le_iff_ne_zero]
    intro hlen
    obtain rfl := List.length_eq_zero_iff.mp hlen
    refine hvertical ⟨fun hnil ↦ hargv.not_empty ?_, hsplit.mp hargv.split_eq⟩
    rw [sdsTrim, hnil]
    rfl

/-- No line of the text has white space only that is not blank. -/
def NoOnlyVertical (text : List UInt8) : Prop := ∀ line ∈ textLines text, ¬OnlyVertical line

theorem not_fault_of_argvSafe {m : ConfigManager} {line : List UInt8} (h : ArgvSafe line) :
    lineEffect m line ≠ .halts .fault := by
  intro heff
  simp only [lineEffect] at heff
  split_ifs at heff with hskip
  obtain ⟨hcomment, hempty⟩ := not_or.mp hskip
  rcases hargs : sdsSplitArgs (sdsTrim line blanks) with _ | _ | _ | ⟨name, args⟩
  · rw [hargs] at heff
    cases heff
  · rw [hargs] at heff
    cases heff
  · exact absurd (h [] ⟨hcomment, hempty, hargs⟩) (by decide)
  · rw [hargs] at heff
    simp only at heff
    split_ifs at heff with hinclude
    · cases args <;> cases heff
    · cases hrule : configGetRule m name with
      | none =>
        rw [hrule] at heff
        cases heff
      | some rule =>
        rw [hrule] at heff
        simp only at heff
        split_ifs at heff

theorem configLoadLines_ne_fault {E : ConfigEnv}
    {loadFile : ConfigManager → List UInt8 → Except ConfigHalt (ConfigManager × ℤ)}
    (hfile : ∀ m path, loadFile m path ≠ .error .fault) {lines : List (List UInt8)}
    (hlines : ∀ line ∈ lines, ArgvSafe line) (m : ConfigManager) :
    configLoadLines E loadFile m lines ≠ .error .fault := by
  induction lines generalizing m with
  | nil => exact fun h ↦ by cases h
  | cons line lines ih =>
    rw [List.forall_mem_cons] at hlines
    cases heff : lineEffect m line with
    | pass =>
      obtain ⟨m', -, hline⟩ := configLoadLines_pass E loadFile heff lines
      rw [hline]
      exact ih hlines.2 m'
    | stop =>
      rw [configLoadLines_stop heff]
      exact fun h ↦ by cases h
    | halts halt =>
      rw [configLoadLines_halts heff]
      intro h
      obtain rfl := Except.error.inj h
      exact not_fault_of_argvSafe hlines.1 heff
    | incl path =>
      rw [configLoadLines_incl heff]
      rcases hload : loadFile m path with halt | ⟨m', r⟩
      · intro h
        cases h
        exact hfile m path hload
      · dsimp only
        split_ifs
        · exact fun h ↦ by cases h
        · exact ih hlines.2 m'

/-- **A run** reads only arguments that are there, if the text and the files have no such line. -/
theorem configLoadString_ne_fault {E : ConfigEnv}
    (hfiles : ∀ path text, E.files path = some text → NoOnlyVertical text) (depth : ℕ)
    (m : ConfigManager) {text : List UInt8} (htext : NoOnlyVertical text) :
    configLoadString E depth m text ≠ .error .fault := by
  induction depth generalizing m text with
  | zero => exact fun h ↦ by cases h
  | succ depth ih =>
    by_cases hfit : LinesFit text
    swap
    · rw [configLoadString_of_not_linesFit _ _ _ hfit]
      exact fun h ↦ by cases h
    rw [configLoadString_succ _ _ _ hfit]
    have hsafe : ∀ line ∈ textLines text, ArgvSafe line := fun line h ↦ (argvSafe_iff line).mpr (htext line h)
    refine configLoadLines_ne_fault (fun m path ↦ ?_) hsafe m
    rw [configLoadFile]
    cases hpath : E.files path with
    | none => exact fun h ↦ by cases h
    | some text => exact ih m (hfiles path text hpath)

/-- **The first argument.** It is there on all lines of a text on which it is read, if and only if no line has
white space only that is not blank; and then no run reads one that is not there. -/
theorem configLoadString_argv (text : List UInt8) :
    ((∀ line ∈ textLines text, ArgvSafe line) ↔ NoOnlyVertical text) ∧
    ∀ E : ConfigEnv, (∀ path text, E.files path = some text → NoOnlyVertical text) →
      ∀ depth m, NoOnlyVertical text → configLoadString E depth m text ≠ .error .fault :=
  ⟨forall₂_congr fun line _ ↦ argvSafe_iff line,
    fun _ hfiles depth m htext ↦ configLoadString_ne_fault hfiles depth m htext⟩

/-- `k c`, an empty line and a comment. -/
theorem configLoadString_argv_three :
    configLoadString configEnvNoFiles 1 (arrayManager []) [107, 32, 99, 10, 10, 35] ≠ .error .fault := by
  refine (configLoadString_argv [107, 32, 99, 10, 10, 35]).2 configEnvNoFiles (fun path text h ↦ by cases h) 1
    (arrayManager []) ?_
  have hlines : textLines [107, 32, 99, 10, 10, 35] = [[107, 32, 99], [], [35]] := rfl
  rw [NoOnlyVertical, hlines, List.forall_mem_cons, List.forall_mem_cons, List.forall_mem_singleton]
  refine ⟨?_, ?_, ?_⟩
  · rintro ⟨-, hspace⟩
    exact absurd (hspace 107 (by decide)) (by decide)
  · rintro ⟨hne, -⟩
    exact hne rfl
  · rintro ⟨-, hspace⟩
    exact absurd (hspace 35 (by decide)) (by decide)

/-- A vertical tab. -/
theorem not_argvSafe_verticalTab :
    (¬∀ line ∈ textLines [11], ArgvSafe line) ∧
      ∀ E depth m, configLoadString E (depth + 1) m [11] = .error .fault := by
  refine ⟨fun h ↦ ?_, fun E depth m ↦ rfl⟩
  exact absurd (h [11] (by decide) [] ⟨by decide, by decide, rfl⟩) (by decide)

end LatteC
