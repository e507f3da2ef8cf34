import LatteC.Config.Basic
import Mathlib.Data.Fintype.Card
import Mathlib.Data.Set.Finite.Basic
import Mathlib.Logic.Relation

/-!
# Files that include one another

`config_load_file` opens the files that the lines of a file name, one inside the other, and remembers
none of them. Whether it comes to an end is decided by the files alone: what a line does depends on the
names and the kinds of the rules, never on their values, and loading changes only the values.

## The argument

A file that is loaded completely is *accepted*; this is a finite derivation over the files. A line is
reached when everything in front of it in its file passes. Loading follows the includes that are
reached, so it ends exactly when no chain of them comes back to a file that it has been at. There is
one more way to go wrong: a line of nothing but vertical tabs and form feeds is blank for
`sds_split_args` but not for `sds_trim`, and then the first argument is read although there is none. And the
lines of a file, and the arguments on a line, are counted in an `int`.
-/

namespace LatteC

/-- `config_load_file`, which loads files down to a depth. -/
def configLoadFile (E : ConfigEnv) (depth : ℕ) (m : ConfigManager) (path : List UInt8) :
    Except ConfigHalt (ConfigManager × ℤ) :=
  match E.files path with
  | none => .error .exit
  | some text => configLoadString E depth m text

/-- What a line makes loading do. -/
inductive LineEffect where
  /-- Go on: there is nothing on the line, or a rule takes its value. -/
  | pass
  /-- Return with an error. -/
  | stop
  /-- Read an argument that is not there, or count too many. -/
  | halts (halt : ConfigHalt)
  /-- Load a file. -/
  | incl (path : List UInt8)
deriving DecidableEq

/-- A rule of the kind takes the arguments for its value. -/
def ConfigKind.accepts (kind : ConfigKind) (args : List (List UInt8)) : Bool :=
  match kind.loadValue args with
  | .error _ => false
  | .ok _ => true

theorem ConfigKind.accepts_iff {kind : ConfigKind} {args : List (List UInt8)} :
    kind.accepts args = true ↔ ∃ value, kind.loadValue args = .ok value := by
  rw [ConfigKind.accepts]
  cases kind.loadValue args with
  | error err => simp
  | ok value => simp

/-- The effect of a line, under the names and the kinds of the rules. -/
def lineEffect (m : ConfigManager) (line : List UInt8) : LineEffect :=
  let line := sdsTrim line blanks
  if line.headD 0 = 35 ∨ line.headD 0 = 0 then .pass
  else
    match sdsSplitArgs line with
    | none => .halts .overflow
    | some none => .stop
    | some (some []) => .halts .fault
    | some (some (name :: args)) =>
      if strEq name includeBytes then
        match args with
        | [] => .stop
        | path :: _ => .incl (cString path)
      else
        match configGetRule m name with
        | none => .stop
        | some rule => if rule.kind.accepts args then .pass else .stop

/-- Loading a text, one file deeper for each file that is included. -/
theorem configLoadString_succ (E : ConfigEnv) (depth : ℕ) (m : ConfigManager) {text : List UInt8}
    (h : LinesFit text) : configLoadString E (depth + 1) m text =
      configLoadLines E (configLoadFile E depth) m (textLines text) := by
  simp only [configLoadString, sdsSplitLen_newline h]
  rfl

theorem configLoadString_of_not_linesFit (E : ConfigEnv) (depth : ℕ) (m : ConfigManager) {text : List UInt8}
    (h : ¬LinesFit text) : configLoadString E (depth + 1) m text = .error .overflow := by
  simp only [configLoadString, sdsSplitLen_newline_eq_none h]

/-- The two have the same rules, up to their values. -/
def SameKinds (m m' : ConfigManager) : Prop :=
  ∀ name, (configGetRule m' name).map ConfigRule.kind = (configGetRule m name).map ConfigRule.kind

theorem SameKinds.refl (m : ConfigManager) : SameKinds m m := fun _ ↦ rfl

theorem SameKinds.trans {m₁ m₂ m₃ : ConfigManager} (h : SameKinds m₁ m₂) (h' : SameKinds m₂ m₃) :
    SameKinds m₁ m₃ := fun name ↦ (h' name).trans (h name)

theorem sameKinds_set {m : ConfigManager} {name : List UInt8} {rule : ConfigRule}
    (h : configGetRule m name = some rule) (value : rule.kind.Value) :
    SameKinds m (m.set name { rule with value := value }) := by
  intro key
  cases hkey : strEq name key with
  | false => rw [configGetRule_set_of_ne hkey]
  | true =>
    rw [← configGetRule_congr hkey, ← configGetRule_congr hkey, configGetRule_set_self h, h]
    rfl

/-- The effect of a line does not depend on the values. -/
theorem lineEffect_congr {m m' : ConfigManager} (h : SameKinds m m') (line : List UInt8) :
    lineEffect m' line = lineEffect m line := by
  simp only [lineEffect]
  split_ifs with hskip
  · rfl
  · rcases hargs : sdsSplitArgs (sdsTrim line blanks) with _ | _ | _ | ⟨name, args⟩
    · rfl
    · rfl
    · rfl
    · simp only
      split_ifs
      · rfl
      · have hname := h name
        cases hrule : configGetRule m name with
        | none =>
          rw [hrule, Option.map_none, Option.map_eq_none_iff] at hname
          rw [hname]
        | some rule =>
          rw [hrule, Option.map_some] at hname
          obtain ⟨rule', hrule', hkind⟩ := Option.map_eq_some_iff.mp hname
          simp only [hrule', hkind]

/-- One turn of the loop, by the effect of the line. -/
theorem configLoadLine_eq (E : ConfigEnv)
    (loadFile : ConfigManager → List UInt8 → Except ConfigHalt (ConfigManager × ℤ)) (m : ConfigManager)
    (line : List UInt8) :
    match lineEffect m line with
    | .pass => ∃ m', SameKinds m m' ∧ configLoadLine E loadFile m line = .ok (m', none)
    | .stop => ∃ err, configLoadLine E loadFile m line = .ok (m, some err)
    | .halts halt => configLoadLine E loadFile m line = .error halt
    | .incl path => configLoadLine E loadFile m line = (loadFile m path).map fun r ↦
        (r.1, if r.2 = 0 then some "Error loading include file" else none) := by
  simp only [lineEffect, configLoadLine]
  split_ifs with hskip
  · exact ⟨m, SameKinds.refl m, rfl⟩
  · rcases hargs : sdsSplitArgs (sdsTrim line blanks) with _ | _ | _ | ⟨name, args⟩
    · rfl
    · exact ⟨_, rfl⟩
    · rfl
    · simp only
      split_ifs with hinclude
      · cases args with
        | nil => exact ⟨_, rfl⟩
        | cons path args => rfl
      · cases hrule : configGetRule m name with
        | none => exact ⟨_, rfl⟩
        | some rule =>
          simp only
          cases hvalue : rule.kind.loadValue args with
          | error err =>
            simp only [ConfigKind.accepts, hvalue, if_neg Bool.false_ne_true]
            exact ⟨_, rfl⟩
          | ok value =>
            simp only [ConfigKind.accepts, hvalue, if_true]
            exact ⟨_, sameKinds_set hrule _, rfl⟩

section Turn

variable {E : ConfigEnv} {loadFile : ConfigManager → List UInt8 → Except ConfigHalt (ConfigManager × ℤ)}
  {m : ConfigManager} {line : List UInt8}

variable (E loadFile) in
theorem configLoadLines_pass (h : lineEffect m line = .pass) (lines : List (List UInt8)) :
    ∃ m', SameKinds m m' ∧
      configLoadLines E loadFile m (line :: lines) = configLoadLines E loadFile m' lines := by
  have hline := configLoadLine_eq E loadFile m line
  rw [h] at hline
  obtain ⟨m', hm', hline⟩ := hline
  exact ⟨m', hm', by rw [configLoadLines, hline]⟩

theorem configLoadLines_stop (h : lineEffect m line = .stop) (lines : List (List UInt8)) :
    configLoadLines E loadFile m (line :: lines) = .ok (m, 0) := by
  have hline := configLoadLine_eq E loadFile m line
  rw [h] at hline
  obtain ⟨err, hline⟩ := hline
  rw [configLoadLines, hline]

theorem configLoadLines_halts {halt : ConfigHalt} (h : lineEffect m line = .halts halt)
    (lines : List (List UInt8)) : configLoadLines E loadFile m (line :: lines) = .error halt := by
  have hline := configLoadLine_eq E loadFile m line
  rw [h] at hline
  rw [configLoadLines, hline]

theorem configLoadLines_incl {p : List UInt8} (h : lineEffect m line = .incl p)
    (lines : List (List UInt8)) :
    configLoadLines E loadFile m (line :: lines) =
      match loadFile m p with
      | .error halt => .error halt
      | .ok (m', r) => if r = 0 then .ok (m', 0) else configLoadLines E loadFile m' lines := by
  have hline := configLoadLine_eq E loadFile m line
  rw [h] at hline
  rw [configLoadLines, hline]
  rcases loadFile m p with halt | ⟨m', r⟩
  · rfl
  · simp only [Except.map]
    split_ifs <;> rfl

end Turn

/-! ## What loading meets -/

/-- The file is loaded completely: each of its lines passes or includes such a file. -/
inductive Accepted (E : ConfigEnv) (m : ConfigManager) : List UInt8 → Prop
  | intro {path text : List UInt8} (hfile : E.files path = some text) (hfit : LinesFit text)
      (hline : ∀ line ∈ textLines text, lineEffect m line ≠ .stop ∧ ∀ halt, lineEffect m line ≠ .halts halt)
      (hincl : ∀ line ∈ textLines text, ∀ p, lineEffect m line = .incl p → Accepted E m p) :
      Accepted E m path

/-- The line does not keep loading from going on. -/
def Passes (E : ConfigEnv) (m : ConfigManager) (line : List UInt8) : Prop :=
  lineEffect m line = .pass ∨ ∃ p, lineEffect m line = .incl p ∧ Accepted E m p

/-- The file can be split, it has the line, and everything in front of the line passes. -/
def Reached (E : ConfigEnv) (m : ConfigManager) (path line : List UInt8) : Prop :=
  ∃ text pre post, E.files path = some text ∧ LinesFit text ∧ textLines text = pre ++ line :: post ∧
    ∀ l ∈ pre, Passes E m l

/-- Loading the file `path` loads `p`. -/
def Includes (E : ConfigEnv) (m : ConfigManager) (path p : List UInt8) : Prop :=
  ∃ line, Reached E m path line ∧ lineEffect m line = .incl p

section Walk

variable {E : ConfigEnv} {m : ConfigManager}

/-- Lines that pass are gone through, if the files they include are. -/
theorem configLoadLines_append (E : ConfigEnv)
    (loadFile : ConfigManager → List UInt8 → Except ConfigHalt (ConfigManager × ℤ))
    {pre : List (List UInt8)} (post : List (List UInt8))
    (hpre : ∀ line ∈ pre, lineEffect m line = .pass ∨ ∃ p, lineEffect m line = .incl p ∧
      ∀ m₁, SameKinds m m₁ → loadFile m₁ p = .error .depth ∨
        ∃ m₂, SameKinds m m₂ ∧ loadFile m₁ p = .ok (m₂, 1)) :
    ∀ {m₁}, SameKinds m m₁ → configLoadLines E loadFile m₁ (pre ++ post) = .error .depth ∨
      ∃ m₂, SameKinds m m₂ ∧
        configLoadLines E loadFile m₁ (pre ++ post) = configLoadLines E loadFile m₂ post := by
  induction pre with
  | nil => exact fun hm₁ ↦ Or.inr ⟨_, hm₁, rfl⟩
  | cons line pre ih =>
    intro m₁ hm₁
    rw [List.forall_mem_cons] at hpre
    rw [List.cons_append]
    rcases hpre.1 with heff | ⟨p, heff, hload⟩
    all_goals rw [← lineEffect_congr hm₁] at heff
    · obtain ⟨m₂, hm₂, hline⟩ := configLoadLines_pass E loadFile heff (pre ++ post)
      rw [hline]
      exact ih hpre.2 (hm₁.trans hm₂)
    · rw [configLoadLines_incl heff]
      rcases hload m₁ hm₁ with hdepth | ⟨m₂, hm₂, hok⟩
      · left
        rw [hdepth]
      · simp only [hok, one_ne_zero, if_false]
        exact ih hpre.2 hm₂

/-- An accepted file is loaded, if the depth is enough. -/
theorem Accepted.load {p : List UInt8} (h : Accepted E m p) :
    ∀ (depth : ℕ) (m₁ : ConfigManager), SameKinds m m₁ →
      configLoadFile E depth m₁ p = .error .depth ∨
        ∃ m₂, SameKinds m m₂ ∧ configLoadFile E depth m₁ p = .ok (m₂, 1) := by
  induction h with
  | @intro path text hfile hfit hline hincl ih =>
    intro depth m₁ hm₁
    rw [configLoadFile, hfile]
    cases depth with
    | zero => exact Or.inl rfl
    | succ depth =>
      simp only [configLoadString_succ _ _ _ hfit]
      have hpre : ∀ line ∈ textLines text, lineEffect m line = .pass ∨
          ∃ p, lineEffect m line = .incl p ∧ ∀ m₁, SameKinds m m₁ →
            configLoadFile E depth m₁ p = .error .depth ∨
              ∃ m₂, SameKinds m m₂ ∧ configLoadFile E depth m₁ p = .ok (m₂, 1) := by
        intro line hmem
        cases heff : lineEffect m line with
        | pass => exact Or.inl rfl
        | stop => exact absurd heff (hline line hmem).1
        | halts halt => exact absurd heff ((hline line hmem).2 halt)
        | incl p => exact Or.inr ⟨p, rfl, ih line hmem p heff depth⟩
      have hlines := configLoadLines_append E (configLoadFile E depth) [] hpre hm₁
      rw [List.append_nil] at hlines
      exact hlines

/-- The lines in front of one that is reached are gone through. -/
theorem Reached.load {path line : List UInt8} (h : Reached E m path line) (depth : ℕ)
    {m₁ : ConfigManager} (hm₁ : SameKinds m m₁) :
    configLoadFile E (depth + 1) m₁ path = .error .depth ∨ ∃ m₂ post, SameKinds m m₂ ∧
      configLoadFile E (depth + 1) m₁ path =
        configLoadLines E (configLoadFile E depth) m₂ (line :: post) := by
  obtain ⟨text, pre, post, hfile, hfit, hsplit, hpre⟩ := h
  simp only [configLoadFile, hfile, configLoadString_succ _ _ _ hfit, hsplit]
  have hpass : ∀ l ∈ pre, lineEffect m l = .pass ∨ ∃ p, lineEffect m l = .incl p ∧
      ∀ m₁, SameKinds m m₁ → configLoadFile E depth m₁ p = .error .depth ∨
        ∃ m₂, SameKinds m m₂ ∧ configLoadFile E depth m₁ p = .ok (m₂, 1) := by
    intro l hl
    rcases hpre l hl with heff | ⟨p, heff, haccepted⟩
    · exact Or.inl heff
    · exact Or.inr ⟨p, heff, haccepted.load depth⟩
  rcases configLoadLines_append E (configLoadFile E depth) (line :: post) hpass hm₁ with
    hdepth | ⟨m₂, hm₂, heq⟩
  · exact Or.inl hdepth
  · exact Or.inr ⟨m₂, post, hm₂, heq⟩

/-! ## From the end to the files -/

/-- The outcome is a result or a call of `exit`. -/
def IsEnd (r : Except ConfigHalt (ConfigManager × ℤ)) : Prop := (∃ v, r = .ok v) ∨ r = .error .exit

/-- Loading the file ends within the depth, whatever the values are. -/
def EndsAt (E : ConfigEnv) (m : ConfigManager) (depth : ℕ) (path : List UInt8) : Prop :=
  ∃ m₁, SameKinds m m₁ ∧ IsEnd (configLoadFile E depth m₁ path)

private theorem not_isEnd_error {halt : ConfigHalt} (h : halt ≠ .exit) : ¬ IsEnd (.error halt) := by
  rintro (⟨v, hv⟩ | hexit)
  · cases hv
  · exact h (Except.error.inj hexit)

/-- A file with lines to be reached is not loaded at depth zero. -/
private theorem Reached.depth_ne_zero {path line : List UInt8} (h : Reached E m path line) {depth : ℕ}
    (hend : EndsAt E m depth path) : ∃ d, depth = d + 1 := by
  cases depth with
  | succ d => exact ⟨d, rfl⟩
  | zero =>
    obtain ⟨text, pre, post, hfile, -⟩ := h
    obtain ⟨m₁, -, hend⟩ := hend
    rw [configLoadFile, hfile] at hend
    exact absurd hend (not_isEnd_error (by decide))

/-- An included file is loaded with less depth. -/
theorem EndsAt.includes {depth : ℕ} {path p : List UInt8} (hend : EndsAt E m depth path)
    (h : Includes E m path p) : ∃ d, d < depth ∧ EndsAt E m d p := by
  obtain ⟨line, hreached, heff⟩ := h
  obtain ⟨d, rfl⟩ := hreached.depth_ne_zero hend
  obtain ⟨m₁, hm₁, hend⟩ := hend
  refine ⟨d, Nat.lt_succ_self d, ?_⟩
  rcases hreached.load d hm₁ with hdepth | ⟨m₂, post, hm₂, heq⟩
  · rw [hdepth] at hend
    exact absurd hend (not_isEnd_error (by decide))
  · rw [← lineEffect_congr hm₂] at heff
    rw [heq, configLoadLines_incl heff] at hend
    refine ⟨m₂, hm₂, ?_⟩
    cases hload : configLoadFile E d m₂ p with
    | ok v => exact Or.inl ⟨v, rfl⟩
    | error halt =>
      rw [hload] at hend
      exact hend

/-- From some depth on the outcome is an end, whatever the values are, and it is a success only if
`complete`. -/
def Settled (m : ConfigManager) (complete : Prop)
    (load : ℕ → ConfigManager → Except ConfigHalt (ConfigManager × ℤ)) : Prop :=
  ∃ d, ∀ depth, d ≤ depth → ∀ m₁, SameKinds m m₁ →
    load depth m₁ = .error .exit ∨
      ∃ m₂ r, load depth m₁ = .ok (m₂, r) ∧ SameKinds m m₂ ∧ (r ≠ 0 → complete)

end Walk

end LatteC
