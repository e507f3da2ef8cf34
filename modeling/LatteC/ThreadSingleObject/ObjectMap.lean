import LatteC.Dict.Fingerprint
import LatteC.Foundation.CallMachine

/-!
# The objects of a thread

`src/thread_single_object/thread_single_object.c`: every thread has one object for each registered name, in a
dictionary of its own. That dictionary is made by the first `set` and dropped with its last object.

## Modelling

The calls are those of one thread, so that its dictionary is part of the state. A value is a `void*`, of which
`none` is `NULL`. What is handed to a destroy function is recorded, with the function. An assertion that fails
is a fault, `none`, and so is the value of an entry that was not found.

## What goes wrong

`set` does not look at what `dict_add` returns: under a name that has an object already the new one is lost.
`delete` reads the value of the entry it looked for, although there may be none.
-/

namespace LatteC

variable {K D V : Type} (F : DictFunc K)

/-- `thread_single_object_manager_t`. The value of a name in `dict` is the `destroy` of its entry, and `object`
is what `pthread_getspecific` returns in this thread. -/
structure ThreadSingleObjectManager (K D V : Type) where
  dict : Dict K (Option D)
  object : Option (Dict K (Option V))

/-- `thread_single_object_module_init`. -/
def threadSingleObjectModuleInit : ThreadSingleObjectManager K D V := ⟨dictNew, none⟩

/-- `thread_single_object_register`. -/
def threadSingleObjectRegister (manager : ThreadSingleObjectManager K D V) (name : K) (destroy : Option D) :
    Option (ThreadSingleObjectManager K D V) :=
  (dictAdd F manager.dict name destroy).bind fun r ↦
    match r.2 with
    | .ok => some { manager with dict := r.1 }
    | .err => none

/-- Names with their destroy functions are registered. -/
def threadSingleObjectRegisterAll : List (K × D) → ThreadSingleObjectManager K D V →
    Option (ThreadSingleObjectManager K D V)
  | [], manager => some manager
  | r :: rs, manager =>
    (threadSingleObjectRegister F manager r.1 (some r.2)).bind (threadSingleObjectRegisterAll rs)

/-- `thread_single_object_destroy`, with the function that is called. -/
def threadSingleObjectDestroy (manager : ThreadSingleObjectManager K D V) (name : K) :
    Option (ThreadSingleObjectManager K D V × D) :=
  (dictFind F manager.dict name).bind fun r ↦
    r.2.bind fun entry ↦ entry.v.join.map fun destroy ↦ ({ manager with dict := r.1 }, destroy)

/-- The loop of `thread_single_object_module_destroy`. -/
def threadSingleObjectDestroyLoop (object : Dict K (Option V)) :
    (fuel : ℕ) → DictIterator K (Option V) → ThreadSingleObjectManager K D V → Option (List (D × Option V))
  | 0, _, _ => none
  | fuel + 1, iter, manager =>
    (dictIteratorHasNext object iter).bind fun r ↦
      if r.2 then
        (dictIteratorNext object r.1).bind fun r ↦
          match r.2 with
          | none => threadSingleObjectDestroyLoop object fuel r.1 manager
          | some pair =>
            pair.v.bind fun value ↦ (threadSingleObjectDestroy F manager pair.key).bind fun q ↦
              (threadSingleObjectDestroyLoop object fuel r.1 q.1).map fun destroyed ↦
                (q.2, value) :: destroyed
      else some []

/-- `thread_single_object_module_destroy`: what is handed to the destroy functions. -/
def threadSingleObjectModuleDestroy (manager : ThreadSingleObjectManager K D V) :
    Option (List (D × Option V)) :=
  match manager.object with
  | none => some []
  | some object =>
    threadSingleObjectDestroyLoop F object (dictSize object + 1) dictGetLatteIterator manager

/-- `thread_single_object_get`. -/
def threadSingleObjectGet (manager : ThreadSingleObjectManager K D V) (name : K) :
    Option (ThreadSingleObjectManager K D V × Option V) :=
  match manager.object with
  | none => some (manager, none)
  | some object => (dictFind F object name).bind fun r ↦
      let manager := { manager with object := some r.1 }
      match r.2 with
      | none => some (manager, none)
      | some entry => entry.v.map fun value ↦ (manager, value)

/-- `thread_single_object_delete`, with what is handed to the destroy function. -/
def threadSingleObjectDelete (manager : ThreadSingleObjectManager K D V) (name : K) :
    Option (ThreadSingleObjectManager K D V × List (D × Option V) × Bool) :=
  match manager.object with
  | none => some (manager, [], false)
  | some object => (dictFind F object name).bind fun r ↦
      -- there is no test of `entry` before its value is read
      r.2.bind fun entry ↦ entry.v.bind fun value ↦
        match value with
        | none => some ({ manager with object := some r.1 }, [], false)
        | some value =>
          (threadSingleObjectDestroy F manager name).bind fun q ↦
            (dictDeleteKey F r.1 name).map fun p ↦
              ({ q.1 with object := if dictSize p.1 = 0 then none else some p.1 }, [(q.2, some value)], true)

/-- `thread_single_object_set`. What `dict_add` returns is ignored. -/
def threadSingleObjectSet (manager : ThreadSingleObjectManager K D V) (name : K) (value : Option V) :
    Option (ThreadSingleObjectManager K D V × Option V) :=
  (dictFind F manager.dict name).bind fun r ↦
    r.2.bind fun _ ↦ (dictAdd F (manager.object.getD dictNew) name value).map fun p ↦
      (⟨r.1, some p.1⟩, value)

/-- A call by the thread. -/
inductive ThreadObjectCall (K V : Type) where
  | set (name : K) (value : Option V)
  | get (name : K)
  | delete (name : K)

/-- The name a call is about. -/
def ThreadObjectCall.name : ThreadObjectCall K V → K
  | .set name _ => name
  | .get name => name
  | .delete name => name

/-- One call. The reply is what is handed to a destroy function. -/
def threadObjectStep (manager : ThreadSingleObjectManager K D V) :
    ThreadObjectCall K V → Option (ThreadSingleObjectManager K D V × List (D × Option V))
  | .set name value => (threadSingleObjectSet F manager name value).map fun r ↦ (r.1, [])
  | .get name => (threadSingleObjectGet F manager name).map fun r ↦ (r.1, [])
  | .delete name => (threadSingleObjectDelete F manager name).map fun r ↦ (r.1, r.2.1)

/-- The entries of the thread. -/
def ThreadSingleObjectManager.entries (manager : ThreadSingleObjectManager K D V) :
    List (DictEntry K (Option V)) :=
  (manager.object.map Dict.entries).getD []

/-- There is an entry under this name. -/
def ThreadSingleObjectManager.hasEntry (manager : ThreadSingleObjectManager K D V) (name : K) : Bool :=
  manager.entries.any fun e ↦ F.keyCompare name e.key

/-- A `set` is of a name without an entry, and a `delete` of a name with one, unless the thread has no
dictionary at all. -/
def ThreadObjectAllowed (manager : ThreadSingleObjectManager K D V) : ThreadObjectCall K V → Prop
  | .set name _ => manager.hasEntry F name = false
  | .get _ => True
  | .delete name => manager.object.isNone = true ∨ manager.hasEntry F name = true

instance (manager : ThreadSingleObjectManager K D V) : DecidablePred (ThreadObjectAllowed F manager)
  | .set name _ => inferInstanceAs (Decidable (manager.hasEntry F name = false))
  | .get _ => isTrue trivial
  | .delete name =>
    inferInstanceAs (Decidable (manager.object.isNone = true ∨ manager.hasEntry F name = true))

/-! ## What it is for -/

/-- What a call does to the value of `name`. -/
def lastSetStep (name : K) (value : Option V) : ThreadObjectCall K V → Option V
  | .set n v => if F.keyCompare n name then v else value
  | .get _ => value
  | .delete n => if F.keyCompare n name then none else value

/-- The value of the last `set` of a name since its last `delete`, `NULL` if there is none. -/
def lastSet (name : K) (calls : List (ThreadObjectCall K V)) : Option V :=
  calls.foldl (lastSetStep F name) none

/-- The destroy function of a name. -/
def destroyOf (registered : List (K × D)) (name : K) : Option D :=
  (registered.find? fun r ↦ F.keyCompare r.1 name).map Prod.snd

/-- The value that a call sets, with the destroy function that it should be handed to. -/
def setValue (registered : List (K × D)) : ThreadObjectCall K V → Option (D × Option V)
  | .set name value => (destroyOf F registered name).map fun destroy ↦ (destroy, value)
  | .get _ => none
  | .delete _ => none

/-- The values that were set. -/
def setValues (registered : List (K × D)) (calls : List (ThreadObjectCall K V)) : List (D × Option V) :=
  calls.filterMap (setValue F registered)

/-- The state after the calls answers as it should, and all values set are destroyed once: those in `destroyed`
so far, and the others when they are deleted or with the module. -/
structure ThreadObjectsRight (registered : List (K × D)) (calls : List (ThreadObjectCall K V))
    (destroyed : List (D × Option V)) (manager : ThreadSingleObjectManager K D V) : Prop where
  get : ∀ name, ∃ manager', threadSingleObjectGet F manager name = some (manager', lastSet F name calls)
  delete : ∀ name destroy, destroyOf F registered name = some destroy →
    ThreadObjectAllowed F manager (.delete name) → ∃ manager',
      threadSingleObjectDelete F manager name = some (manager',
        (lastSet F name calls).toList.map fun value ↦ (destroy, some value),
        (lastSet F name calls).isSome) ∧
      -- nothing but the layout of the tables changes
      (lastSet F name calls = none → manager'.entries.Perm manager.entries)
  destroy : ∃ rest, threadSingleObjectModuleDestroy F manager = some rest ∧
    (destroyed ++ rest).Perm (setValues F registered calls)

/-! ## One call -/

theorem destroyOf_congr (registered : List (K × D)) {name name' : K} (h : F.cls name = F.cls name') :
    destroyOf F registered name = destroyOf F registered name' := by
  have hsame : (fun r : K × D ↦ F.keyCompare r.1 name) = fun r ↦ F.keyCompare r.1 name' := by
    funext r
    rw [Bool.eq_iff_iff, ← F.cls_eq_cls_iff, ← F.cls_eq_cls_iff, h]
  rw [destroyOf, destroyOf, hsame]

/-- The destroy function of the name of an entry, with its value. -/
def destroyEntry (registered : List (K × D)) (e : DictEntry K (Option V)) : Option (D × Option V) :=
  (destroyOf F registered e.key).map fun destroy ↦ (destroy, e.v.join)

namespace ThreadSingleObjectManager

/-- The entries of the thread by their names. -/
def toMap (manager : ThreadSingleObjectManager K D V) : Finmap fun _ : F.Key ↦ DictEntry K (Option V) :=
  (manager.object.getD dictNew).toMap F

/-- The value under a name. -/
def value (manager : ThreadSingleObjectManager K D V) (name : K) : Option V :=
  ((manager.toMap F).lookup (F.cls name)).bind fun e ↦ e.v.join

theorem entries_eq (manager : ThreadSingleObjectManager K D V) :
    manager.entries = (manager.object.getD dictNew).entries := by
  rw [entries]
  cases manager.object with
  | none => rfl
  | some object => rfl

/-- Every registered name has its destroy function, and every entry has a value and a registered name. -/
structure Inv (registered : List (K × D)) (manager : ThreadSingleObjectManager K D V) : Prop where
  dict : manager.dict.Inv F
  destroy : ∀ name destroy, destroyOf F registered name = some destroy →
    ∃ key, (manager.dict.toMap F).lookup (F.cls name) = some ⟨key, some (some destroy)⟩
  object : (manager.object.getD dictNew).Inv F
  entry : ∀ e ∈ manager.entries, e.v.isSome = true ∧ (destroyOf F registered e.key).isSome = true

namespace Inv

variable {F} {registered : List (K × D)} {manager : ThreadSingleObjectManager K D V}

theorem hasEntry_eq (h : manager.Inv F registered) (name : K) :
    manager.hasEntry F name = ((manager.toMap F).lookup (F.cls name)).isSome := by
  rw [Bool.eq_iff_iff, hasEntry, entries_eq, List.any_eq_true, Option.isSome_iff_exists]
  constructor
  · rintro ⟨e, hmem, hcmp⟩
    exact ⟨e, h.object.lookup_of_mem hmem hcmp⟩
  · rintro ⟨e, hlookup⟩
    obtain ⟨hmem, hcls⟩ := h.object.exists_entry_of_lookup hlookup
    exact ⟨e, hmem, F.cls_eq_cls_iff.mp hcls.symm⟩

/-- What is found under a name has a value. -/
theorem exists_value (h : manager.Inv F registered) {name : K} {e : DictEntry K (Option V)}
    (hlookup : (manager.toMap F).lookup (F.cls name) = some e) :
    ∃ value, e.v = some value ∧ manager.value F name = value := by
  obtain ⟨hmem, -⟩ := h.object.exists_entry_of_lookup hlookup
  obtain ⟨value, hv⟩ := Option.isSome_iff_exists.mp (h.entry e (manager.entries_eq ▸ hmem)).1
  refine ⟨value, hv, ?_⟩
  rw [ThreadSingleObjectManager.value, hlookup, Option.bind_some, hv, Option.join_some]

/-- There is at most one entry for each registered name. -/
theorem dictSize_le (h : manager.Inv F registered) :
    dictSize (manager.object.getD dictNew) ≤ registered.length := by
  have hsub : ((manager.object.getD dictNew).entries.map fun e ↦ F.cls e.key) ⊆
      registered.map fun r ↦ F.cls r.1 := by
    intro k hk
    obtain ⟨e, hmem, rfl⟩ := List.mem_map.mp hk
    have hname := (h.entry e (manager.entries_eq ▸ hmem)).2
    rw [destroyOf, Option.isSome_map, List.find?_isSome] at hname
    obtain ⟨r, hr, hcmp⟩ := hname
    exact List.mem_map.mpr ⟨r, hr, F.cls_eq_cls_iff.mpr hcmp⟩
  have hle := (List.subperm_of_subset h.object.distinct hsub).length_le
  rw [List.length_map, List.length_map] at hle
  rwa [h.object.dictSize_eq_length]

/-- The entries may be in a dictionary of the same contents. -/
theorem of_toMap_eq (h : manager.Inv F registered) {object : Dict K (Option V)} (hobject : object.Inv F)
    (hmap : object.toMap F = manager.toMap F) :
    ({ manager with object := some object } : ThreadSingleObjectManager K D V).Inv F registered := by
  refine ⟨h.dict, h.destroy, hobject, fun e he ↦ h.entry e ?_⟩
  rw [entries_eq]
  exact (h.object.perm_of_toMap_eq hobject hmap).mem_iff.mp he

theorem destroy_spec (h : manager.Inv F registered) {name : K} {destroy : D}
    (hname : destroyOf F registered name = some destroy) :
    ∃ manager', threadSingleObjectDestroy F manager name = some (manager', destroy) ∧
      manager'.Inv F registered ∧ manager'.object = manager.object := by
  obtain ⟨key, hlookup⟩ := h.destroy name destroy hname
  obtain ⟨dict, hfind, hdict, hmap⟩ := dictFind_spec h.dict name
  refine ⟨{ manager with dict := dict }, ?_, ⟨hdict, ?_, h.object, h.entry⟩, rfl⟩
  · rw [threadSingleObjectDestroy, hfind, Option.bind_some, hlookup]
    rfl
  · rw [hmap]
    exact h.destroy

theorem get_spec (h : manager.Inv F registered) (name : K) :
    ∃ manager', threadSingleObjectGet F manager name = some (manager', manager.value F name) ∧
      manager'.Inv F registered ∧ manager'.toMap F = manager.toMap F := by
  cases hobject : manager.object with
  | none =>
    refine ⟨manager, ?_, h, rfl⟩
    rw [threadSingleObjectGet, hobject, value, toMap, hobject]
    rfl
  | some object =>
    have hmap₀ : manager.toMap F = object.toMap F := by rw [toMap, hobject, Option.getD_some]
    have hinv : object.Inv F := by
      have hgetD := h.object
      rwa [hobject, Option.getD_some] at hgetD
    obtain ⟨object', hfind, hinv', hmap⟩ := dictFind_spec hinv name
    rw [← hmap₀] at hfind hmap
    refine ⟨_, ?_, h.of_toMap_eq hinv' hmap, hmap⟩
    rw [threadSingleObjectGet, hobject]
    simp only [hfind, Option.bind_some]
    cases hlookup : (manager.toMap F).lookup (F.cls name) with
    | none => rw [value, hlookup, Option.bind_none]
    | some e =>
      obtain ⟨v, hv, hvalue⟩ := h.exists_value hlookup
      simp only [hv, Option.map_some, hvalue]

/-- A new name gets its value. -/
theorem set_spec (h : manager.Inv F registered) (hfits : DictFits registered.length) {name : K}
    {destroy : D} (hname : destroyOf F registered name = some destroy) (v : Option V)
    (hnone : (manager.toMap F).lookup (F.cls name) = none) :
    ∃ manager', threadSingleObjectSet F manager name v = some (manager', v) ∧
      manager'.Inv F registered ∧
      manager'.toMap F = (manager.toMap F).insert (F.cls name) ⟨name, some v⟩ := by
  have hsize : dictSize (manager.object.getD dictNew) < 2 ^ 60 := by
    have hle := h.dictSize_le
    rw [DictFits] at hfits
    omega
  obtain ⟨key, hlookup⟩ := h.destroy name destroy hname
  obtain ⟨dict, hfind, hdict, hmap⟩ := dictFind_spec h.dict name
  obtain ⟨object, s, hadd, hobject, hres⟩ := dictAdd_spec h.object hsize name v
  have hmapnone : ((manager.object.getD dictNew).toMap F).lookup (F.cls name) = none := hnone
  rw [hmapnone] at hres
  refine ⟨⟨dict, some object⟩, ?_, ⟨hdict, ?_, hobject, ?_⟩, hres.2⟩
  · rw [threadSingleObjectSet, hfind, Option.bind_some, hlookup, Option.bind_some, hadd, Option.map_some]
  · rw [hmap]
    exact h.destroy
  · intro e he
    have hperm := h.object.perm_of_toMap_insert hobject (e := ⟨name, some v⟩) hmapnone hres.2
    rcases List.mem_cons.mp (hperm.mem_iff.mp he) with rfl | hold
    · exact ⟨rfl, by rw [hname, Option.isSome_some]⟩
    · exact h.entry e (manager.entries_eq ▸ hold)

/-- The dictionary that is kept behind a `delete` has the same contents. -/
theorem inv_dropEmpty {object : Dict K (Option V)} (h : object.Inv F) :
    ((if dictSize object = 0 then none else some object).getD dictNew).Inv F ∧
      ((if dictSize object = 0 then none else some object).getD dictNew).toMap F = object.toMap F := by
  split_ifs with hempty
  · rw [h.dictSize_eq_length, List.length_eq_zero_iff] at hempty
    refine ⟨inv_dictNew F, ?_⟩
    rw [Option.getD_none, toMap_dictNew, Dict.toMap, hempty]
    rfl
  · exact ⟨h, rfl⟩

/-- Where there is a value it is handed over and its entry goes. -/
theorem delete_spec (h : manager.Inv F registered) {name : K} {destroy : D}
    (hname : destroyOf F registered name = some destroy)
    (hallowed : ThreadObjectAllowed F manager (.delete name)) :
    ∃ manager', threadSingleObjectDelete F manager name = some (manager',
        (manager.value F name).toList.map fun v ↦ (destroy, some v), (manager.value F name).isSome) ∧
      manager'.Inv F registered ∧ manager'.toMap F =
        if (manager.value F name).isSome then (manager.toMap F).erase (F.cls name) else manager.toMap F := by
  cases hobject : manager.object with
  | none =>
    have hvalue : manager.value F name = none := by
      rw [value, toMap, hobject]
      rfl
    refine ⟨manager, ?_, h, ?_⟩
    · rw [threadSingleObjectDelete, hobject, hvalue]
      rfl
    · rw [hvalue, Option.isSome_none, if_neg Bool.false_ne_true]
  | some object =>
    have hmap₀ : manager.toMap F = object.toMap F := by rw [toMap, hobject, Option.getD_some]
    have hinv : object.Inv F := by
      have hgetD := h.object
      rwa [hobject, Option.getD_some] at hgetD
    have hhas : manager.hasEntry F name = true :=
      hallowed.resolve_left (by rw [hobject]; exact Bool.false_ne_true)
    rw [h.hasEntry_eq] at hhas
    obtain ⟨e, hlookup⟩ := Option.isSome_iff_exists.mp hhas
    obtain ⟨v, hv, hvalue⟩ := h.exists_value hlookup
    obtain ⟨object', hfind, hinv', hmap⟩ := dictFind_spec hinv name
    rw [← hmap₀, hlookup] at hfind
    rw [← hmap₀] at hmap
    rw [threadSingleObjectDelete, hobject, hvalue]
    simp only [hfind, Option.bind_some, hv]
    cases v with
    | none => exact ⟨_, rfl, h.of_toMap_eq hinv' hmap, hmap⟩
    | some v =>
      obtain ⟨manager₁, hdestroy, h₁, -⟩ := h.destroy_spec hname
      obtain ⟨object'', hdelete, hinv'', herase⟩ := dictGenericDelete_spec hinv' name
      rw [hmap] at herase
      obtain ⟨hkept, hmap''⟩ := inv_dropEmpty hinv''
      rw [herase] at hmap''
      refine ⟨{ manager₁ with object := if dictSize object'' = 0 then none else some object'' }, ?_,
        ⟨h₁.dict, h₁.destroy, hkept, fun e' he' ↦ h.entry e' ?_⟩, hmap''⟩
      · simp only [hdestroy, Option.bind_some, dictDeleteKey, hdelete, Option.map_some]
        rfl
      · rw [entries_eq] at he'
        have hperm := h.object.perm_of_toMap_erase hkept hlookup hmap''
        rw [entries_eq]
        exact hperm.mem_iff.mpr (List.mem_cons_of_mem e he')

end Inv

end ThreadSingleObjectManager

section Runs

variable {F} {registered : List (K × D)} {manager : ThreadSingleObjectManager K D V}

/-- The loop hands over the values of the entries that are still to come. -/
theorem threadSingleObjectDestroyLoop_spec {object : Dict K (Option V)} (hd : object.Sized) :
    ∀ (ys : List (DictEntry K (Option V))) (fuel : ℕ) (iter : DictIterator K (Option V))
      (manager : ThreadSingleObjectManager K D V),
      DictHasNext object ys (dictIteratorHasNext object iter) → manager.Inv F registered →
      (∀ e ∈ ys, e.v.isSome = true ∧ (destroyOf F registered e.key).isSome = true) → ys.length < fuel →
      threadSingleObjectDestroyLoop F object fuel iter manager =
        some (ys.filterMap (destroyEntry F registered)) := by
  intro ys
  induction ys with
  | nil =>
    intro fuel iter manager hhas _ _ hfuel
    obtain ⟨fuel, rfl⟩ := Nat.exists_eq_succ_of_ne_zero hfuel.ne'
    obtain ⟨iter', hhas, -⟩ := hhas
    rw [threadSingleObjectDestroyLoop, hhas]
    rfl
  | cons y ys ih =>
    intro fuel iter manager hhas h hys hfuel
    obtain ⟨fuel, rfl⟩ := Nat.exists_eq_succ_of_ne_zero (Nat.ne_zero_of_lt hfuel)
    obtain ⟨iter₁, hhas, hat⟩ := hhas
    obtain ⟨iter₂, hnext, hat₂⟩ := dictIteratorNext_atEntry hat
    obtain ⟨hv, hname⟩ := hys y List.mem_cons_self
    obtain ⟨v, hv⟩ := Option.isSome_iff_exists.mp hv
    obtain ⟨destroy, hname⟩ := Option.isSome_iff_exists.mp hname
    obtain ⟨manager₁, hdestroy, h₁, -⟩ := h.destroy_spec hname
    have hrest := ih fuel iter₂ manager₁ (dictIteratorHasNext_atEntry hd hat₂) h₁
      (fun e he ↦ hys e (List.mem_cons_of_mem y he)) (Nat.lt_of_succ_lt_succ hfuel)
    have hentry : destroyEntry F registered y = some (destroy, v) := by
      rw [destroyEntry, hname, hv, Option.map_some, Option.join_some]
    rw [threadSingleObjectDestroyLoop, hhas, Option.bind_some, if_pos rfl]
    simp only [hnext, Option.bind_some, hv, hdestroy, hrest, Option.map_some]
    rw [List.filterMap_cons_some hentry]

theorem ThreadSingleObjectManager.Inv.moduleDestroy_spec (h : manager.Inv F registered) :
    threadSingleObjectModuleDestroy F manager =
      some (manager.entries.filterMap (destroyEntry F registered)) := by
  cases hobject : manager.object with
  | none =>
    rw [threadSingleObjectModuleDestroy, hobject, ThreadSingleObjectManager.entries, hobject]
    rfl
  | some object =>
    have hentries : manager.entries = object.entries := by
      rw [ThreadSingleObjectManager.entries_eq, hobject, Option.getD_some]
    have hinv : object.Inv F := by
      have hgetD := h.object
      rwa [hobject, Option.getD_some] at hgetD
    rw [threadSingleObjectModuleDestroy, hobject, hentries]
    refine threadSingleObjectDestroyLoop_spec hinv.sized _ _ _ _ (dictIteratorHasNext_new hinv.sized) h
      (hentries ▸ h.entry) ?_
    rw [hinv.dictSize_eq_length]
    exact Nat.lt_succ_self _

/-! ## Runs -/

/-- The calls have led to this state: every value is the last one set, and all values set have been handed over
or are held. -/
structure ThreadSingleObjectManager.Reached (F : DictFunc K) (registered : List (K × D))
    (calls : List (ThreadObjectCall K V)) (destroyed : List (D × Option V))
    (manager : ThreadSingleObjectManager K D V) : Prop where
  inv : manager.Inv F registered
  value_eq : ∀ name, manager.value F name = lastSet F name calls
  kept : (destroyed ++ manager.entries.filterMap (destroyEntry F registered)).Perm
    (setValues F registered calls)

theorem lastSet_append (name : K) (calls : List (ThreadObjectCall K V)) (call : ThreadObjectCall K V) :
    lastSet F name (calls ++ [call]) = lastSetStep F name (lastSet F name calls) call :=
  List.foldl_append

theorem setValues_append (calls : List (ThreadObjectCall K V)) (call : ThreadObjectCall K V) :
    setValues F registered (calls ++ [call]) =
      setValues F registered calls ++ (setValue F registered call).toList := by
  rw [setValues, List.filterMap_append, setValues]
  cases hcall : setValue F registered call with
  | none => rw [List.filterMap_cons_none hcall, List.filterMap_nil, Option.toList_none]
  | some value => rw [List.filterMap_cons_some hcall, List.filterMap_nil, Option.toList_some]

namespace ThreadSingleObjectManager

variable {manager' : ThreadSingleObjectManager K D V} {calls : List (ThreadObjectCall K V)}
  {destroyed : List (D × Option V)} {name : K}

theorem value_of_insert {v : Option V}
    (hmap : manager'.toMap F = (manager.toMap F).insert (F.cls name) ⟨name, some v⟩) (name' : K) :
    manager'.value F name' = if F.keyCompare name name' then v else manager.value F name' := by
  rw [value, hmap]
  split_ifs with hcmp
  · rw [F.cls_eq_cls_iff.mpr hcmp, Finmap.lookup_insert, Option.bind_some, Option.join_some]
  · rw [Finmap.lookup_insert_of_ne _ fun heq ↦ hcmp (F.cls_eq_cls_iff.mp heq.symm), value]

theorem value_of_erase (hmap : manager'.toMap F = (manager.toMap F).erase (F.cls name)) (name' : K) :
    manager'.value F name' = if F.keyCompare name name' then none else manager.value F name' := by
  rw [value, hmap]
  split_ifs with hcmp
  · rw [F.cls_eq_cls_iff.mpr hcmp, Finmap.lookup_erase, Option.bind_none]
  · rw [Finmap.lookup_erase_ne fun heq ↦ hcmp (F.cls_eq_cls_iff.mp heq.symm), value]

theorem value_of_toMap_eq (hmap : manager'.toMap F = manager.toMap F) (name : K) :
    manager'.value F name = manager.value F name := by
  rw [value, hmap, value]

theorem Inv.perm_of_toMap_eq (h : manager.Inv F registered) (h' : manager'.Inv F registered)
    (hmap : manager'.toMap F = manager.toMap F) : manager'.entries.Perm manager.entries := by
  rw [entries_eq, entries_eq]
  exact h.object.perm_of_toMap_eq h'.object hmap

namespace Reached

variable (h : manager.Reached F registered calls destroyed)

include h

theorem set (hfits : DictFits registered.length) {destroy : D}
    (hname : destroyOf F registered name = some destroy) (v : Option V)
    (hallowed : manager.hasEntry F name = false) :
    ∃ manager', threadSingleObjectSet F manager name v = some (manager', v) ∧
      manager'.Reached F registered (calls ++ [.set name v]) destroyed := by
  rw [h.inv.hasEntry_eq, Option.isSome_eq_false_iff, Option.isNone_iff_eq_none] at hallowed
  obtain ⟨manager', hset, hinv, hmap⟩ := h.inv.set_spec hfits hname v hallowed
  refine ⟨manager', hset, hinv, fun name' ↦ ?_, ?_⟩
  · rw [value_of_insert hmap, lastSet_append, ← h.value_eq]
    rfl
  · -- the new entry is the new value
    have hperm : manager'.entries.Perm (⟨name, some v⟩ :: manager.entries) := by
      rw [entries_eq, entries_eq]
      exact h.inv.object.perm_of_toMap_insert hinv.object hallowed hmap
    have hentry : destroyEntry F registered (⟨name, some v⟩ : DictEntry K (Option V)) = some (destroy, v) := by
      rw [destroyEntry, hname, Option.map_some, Option.join_some]
    have hheld := hperm.filterMap (destroyEntry F registered)
    rw [List.filterMap_cons_some hentry] at hheld
    rw [setValues_append, setValue, hname, Option.map_some, Option.toList_some]
    refine (hheld.append_left destroyed).trans (List.perm_middle.trans ?_)
    exact (h.kept.cons _).trans (List.perm_append_singleton _ _).symm

theorem get (name : K) :
    ∃ manager', threadSingleObjectGet F manager name = some (manager', lastSet F name calls) ∧
      manager'.Reached F registered (calls ++ [.get name]) destroyed := by
  obtain ⟨manager', hget, hinv, hmap⟩ := h.inv.get_spec name
  rw [h.value_eq] at hget
  refine ⟨manager', hget, hinv, fun name' ↦ ?_, ?_⟩
  · rw [value_of_toMap_eq hmap, lastSet_append, h.value_eq]
    rfl
  · rw [setValues_append, setValue, Option.toList_none, List.append_nil]
    exact (((h.inv.perm_of_toMap_eq hinv hmap).filterMap _).append_left destroyed).trans h.kept

theorem delete {destroy : D} (hname : destroyOf F registered name = some destroy)
    (hallowed : ThreadObjectAllowed F manager (.delete name)) :
    ∃ manager' handed, threadSingleObjectDelete F manager name =
        some (manager', handed, (lastSet F name calls).isSome) ∧
      handed = ((lastSet F name calls).toList.map fun v ↦ (destroy, some v)) ∧
      manager'.Reached F registered (calls ++ [.delete name]) (destroyed ++ handed) ∧
      (lastSet F name calls = none → manager'.entries.Perm manager.entries) := by
  obtain ⟨manager', hdelete, hinv, hmap⟩ := h.inv.delete_spec hname hallowed
  rw [h.value_eq] at hdelete hmap
  refine ⟨manager', _, hdelete, rfl, ⟨hinv, fun name' ↦ ?_, ?_⟩, fun hnull ↦ ?_⟩
  · rw [lastSet_append, lastSetStep, ← h.value_eq name']
    cases hlast : lastSet F name calls with
    | none =>
      rw [hlast, Option.isSome_none, if_neg Bool.false_ne_true] at hmap
      rw [value_of_toMap_eq hmap]
      split_ifs with hcmp
      · rw [value, ← F.cls_eq_cls_iff.mpr hcmp, ← hlast, ← h.value_eq, value]
      · rfl
    | some v =>
      rw [hlast, Option.isSome_some, if_pos rfl] at hmap
      exact value_of_erase hmap name'
  · rw [setValues_append, setValue, Option.toList_none, List.append_nil]
    refine List.Perm.trans ?_ h.kept
    cases hlast : lastSet F name calls with
    | none =>
      rw [hlast, Option.isSome_none, if_neg Bool.false_ne_true] at hmap
      rw [Option.toList_none, List.map_nil, List.append_nil]
      exact ((h.inv.perm_of_toMap_eq hinv hmap).filterMap _).append_left destroyed
    | some v =>
      rw [hlast, Option.isSome_some, if_pos rfl] at hmap
      -- the entry that has gone is the one that was handed over
      have hvalue := h.value_eq name
      rw [hlast, value, Option.bind_eq_some_iff] at hvalue
      obtain ⟨e, hlookup, hv⟩ := hvalue
      have hperm : manager.entries.Perm (e :: manager'.entries) := by
        rw [entries_eq, entries_eq]
        exact h.inv.object.perm_of_toMap_erase hinv.object hlookup hmap
      have hcls := (h.inv.object.exists_entry_of_lookup hlookup).2
      have hentry : destroyEntry F registered e = some (destroy, some v) := by
        rw [destroyEntry, destroyOf_congr F registered hcls, hname, Option.map_some, hv]
      have hheld := hperm.filterMap (destroyEntry F registered)
      rw [List.filterMap_cons_some hentry] at hheld
      rw [Option.toList_some, List.map_singleton, List.append_assoc, List.singleton_append]
      exact hheld.symm.append_left destroyed
  · rw [hnull, Option.isSome_none, if_neg Bool.false_ne_true] at hmap
    exact h.inv.perm_of_toMap_eq hinv hmap

theorem right : ThreadObjectsRight F registered calls destroyed manager := by
  refine ⟨fun name ↦ ?_, fun name destroy hname hallowed ↦ ?_, ?_⟩
  · obtain ⟨manager', hget, -⟩ := h.get name
    exact ⟨manager', hget⟩
  · obtain ⟨manager', _, hdelete, rfl, -, hsame⟩ := h.delete hname hallowed
    exact ⟨manager', hdelete, hsame⟩
  · exact ⟨_, h.inv.moduleDestroy_spec, h.kept⟩

theorem step (hfits : DictFits registered.length) {call : ThreadObjectCall K V}
    (hname : (destroyOf F registered call.name).isSome = true)
    (hallowed : ThreadObjectAllowed F manager call) :
    ∃ manager' handed, threadObjectStep F manager call = some (manager', handed) ∧
      manager'.Reached F registered (calls ++ [call]) (destroyed ++ handed) := by
  obtain ⟨destroy, hname⟩ := Option.isSome_iff_exists.mp hname
  cases call with
  | set name v =>
    have hname : destroyOf F registered name = some destroy := hname
    obtain ⟨manager', hset, hreached⟩ := h.set hfits hname v hallowed
    refine ⟨manager', [], by rw [threadObjectStep, hset, Option.map_some], ?_⟩
    rwa [List.append_nil]
  | get name =>
    obtain ⟨manager', hget, hreached⟩ := h.get name
    refine ⟨manager', [], by rw [threadObjectStep, hget, Option.map_some], ?_⟩
    rwa [List.append_nil]
  | delete name =>
    have hname : destroyOf F registered name = some destroy := hname
    obtain ⟨manager', handed, hdelete, -, hreached, -⟩ := h.delete hname hallowed
    exact ⟨manager', handed, by rw [threadObjectStep, hdelete, Option.map_some], hreached⟩

end Reached

theorem Reached.run (hfits : DictFits registered.length) {calls' : List (ThreadObjectCall K V)}
    (h : manager.Reached F registered calls destroyed)
    (hnames : ∀ call ∈ calls', (destroyOf F registered call.name).isSome = true)
    (hok : CallMachine.Guarded (ThreadObjectAllowed F) (threadObjectStep F) manager calls') :
    ∃ manager' handed, CallMachine.run (threadObjectStep F) manager calls' = some (manager', handed) ∧
      manager'.Reached F registered (calls ++ calls') (destroyed ++ handed.flatten) := by
  induction calls' generalizing manager calls destroyed with
  | nil =>
    refine ⟨manager, [], rfl, ?_⟩
    rwa [List.append_nil, List.flatten_nil, List.append_nil]
  | cons call calls' ih =>
    obtain ⟨manager₁, handed₁, hstep, h₁⟩ := h.step hfits (hnames call List.mem_cons_self) hok.1
    obtain ⟨manager', handed, hrun, h'⟩ :=
      ih h₁ (fun c hc ↦ hnames c (List.mem_cons_of_mem call hc)) (hok.2 _ _ hstep)
    refine ⟨manager', handed₁ :: handed, ?_, ?_⟩
    · rw [CallMachine.run_cons_of_step hstep, hrun, Option.map_some]
    · rwa [List.append_assoc, List.singleton_append, List.append_assoc, ← List.flatten_cons] at h'

/-- These names are registered, and no thread has an object yet. -/
structure Registered (F : DictFunc K) (registered : List (K × D))
    (manager : ThreadSingleObjectManager K D V) : Prop where
  dict : manager.dict.Inv F
  object : manager.object = none
  found : ∀ r ∈ registered,
    (manager.dict.toMap F).lookup (F.cls r.1) = some ⟨r.1, some (some r.2)⟩
  size : dictSize manager.dict ≤ registered.length

theorem Registered.register (h : manager.Registered F registered) {r : K × D}
    (hfits : DictFits (registered.length + 1))
    (hregister : threadSingleObjectRegister F manager r.1 (some r.2) = some manager') :
    manager'.Registered F (registered ++ [r]) := by
  have hsize : dictSize manager.dict < 2 ^ 60 := by
    have hle := h.size
    rw [DictFits] at hfits
    omega
  obtain ⟨dict, s, hadd, hdict, hres⟩ := dictAdd_spec h.dict hsize r.1 (some r.2)
  rw [threadSingleObjectRegister, hadd, Option.bind_some] at hregister
  cases hlookup : (manager.dict.toMap F).lookup (F.cls r.1) with
  | some e =>
    rw [hlookup] at hres
    simp only [hres.1, reduceCtorEq] at hregister
  | none =>
    rw [hlookup] at hres
    simp only [hres.1, Option.some.injEq] at hregister
    subst hregister
    refine ⟨hdict, h.object, fun q hq ↦ ?_, ?_⟩
    · rw [hres.2]
      rcases List.mem_append.mp hq with hold | hnew
      · have hfound := h.found q hold
        have hne : F.cls q.1 ≠ F.cls r.1 := by
          intro heq
          rw [heq, hlookup] at hfound
          cases hfound
        rw [Finmap.lookup_insert_of_ne _ hne, hfound]
      · rw [List.mem_singleton.mp hnew, Finmap.lookup_insert]
    · have hperm := h.dict.perm_of_toMap_insert hdict (e := ⟨r.1, some (some r.2)⟩) hlookup hres.2
      have hlen := hperm.length_eq
      rw [List.length_cons, ← hdict.dictSize_eq_length, ← h.dict.dictSize_eq_length] at hlen
      rw [hlen, List.length_append]
      exact Nat.add_le_add_right h.size 1

theorem Registered.registerAll {rs : List (K × D)} (h : manager.Registered F registered)
    (hfits : DictFits (registered.length + rs.length))
    (hregister : threadSingleObjectRegisterAll F rs manager = some manager') :
    manager'.Registered F (registered ++ rs) := by
  induction rs generalizing manager registered with
  | nil =>
    rw [threadSingleObjectRegisterAll, Option.some.injEq] at hregister
    subst hregister
    rwa [List.append_nil]
  | cons r rs ih =>
    rw [threadSingleObjectRegisterAll, Option.bind_eq_some_iff] at hregister
    obtain ⟨manager₁, hfirst, hrest⟩ := hregister
    rw [DictFits, List.length_cons] at hfits
    have h₁ := h.register (by rw [DictFits]; omega) hfirst
    have hall := ih h₁ (by rw [DictFits, List.length_append, List.length_singleton]; omega) hrest
    rwa [List.append_assoc, List.singleton_append] at hall

theorem Registered.reached (h : manager.Registered F registered) : manager.Reached F registered [] [] := by
  have hentries : manager.entries = [] := by
    rw [entries, h.object]
    rfl
  have hmap : manager.toMap F = ∅ := by
    rw [toMap, h.object, Option.getD_none, toMap_dictNew]
  refine ⟨⟨h.dict, fun name destroy hname ↦ ?_, ?_, ?_⟩, fun name ↦ ?_, ?_⟩
  · rw [destroyOf, Option.map_eq_some_iff] at hname
    obtain ⟨r, hfind, rfl⟩ := hname
    have hcmp : F.keyCompare r.1 name = true :=
      List.find?_some (p := fun r : K × D ↦ F.keyCompare r.1 name) hfind
    have hcls := F.cls_eq_cls_iff.mpr hcmp
    exact ⟨r.1, hcls ▸ h.found r (List.mem_of_find?_eq_some hfind)⟩
  · rw [h.object, Option.getD_none]
    exact inv_dictNew F
  · rw [hentries]
    exact fun e he ↦ absurd he List.not_mem_nil
  · rw [value, hmap, Finmap.lookup_empty]
    rfl
  · rw [hentries]
    exact List.Perm.refl _

end ThreadSingleObjectManager

/-- **The objects of a thread.** In every run over registered names in which a `set` is of a name without an
entry, and a `delete` of a name with one or made while the thread has no dictionary, every state answers as it
should, and every value set is handed to its destroy function once. -/
theorem threadSingleObject_run {calls : List (ThreadObjectCall K V)}
    (hregister : threadSingleObjectRegisterAll F registered threadSingleObjectModuleInit = some manager)
    (hfits : DictFits registered.length)
    (hnames : ∀ call ∈ calls, (destroyOf F registered call.name).isSome = true)
    (hok : CallMachine.Guarded (ThreadObjectAllowed F) (threadObjectStep F) manager calls) :
    ∃ manager' handed, CallMachine.run (threadObjectStep F) manager calls = some (manager', handed) ∧
      ThreadObjectsRight F registered calls handed.flatten manager' := by
  have hinit : (threadSingleObjectModuleInit : ThreadSingleObjectManager K D V).Registered F [] :=
    ⟨inv_dictNew F, rfl, fun r hr ↦ absurd hr List.not_mem_nil, Nat.le_refl 0⟩
  have hreg := hinit.registerAll (by rwa [List.length_nil, Nat.zero_add]) hregister
  obtain ⟨manager', handed, hrun, hreached⟩ := hreg.reached.run hfits hnames hok
  exact ⟨manager', handed, hrun, hreached.right⟩

end Runs

/-- Two names, one of which gets its second object after the first one has been deleted. -/
def twoObjectCalls : List (ThreadObjectCall ℕ ℕ) :=
  [.delete 1, .set 1 (some 10), .set 2 (some 20), .get 1, .delete 1, .set 1 (some 11)]

theorem threadSingleObject_run_two : ∃ manager, threadSingleObjectRegisterAll natDictFunc [(1, 100), (2, 200)]
      (threadSingleObjectModuleInit : ThreadSingleObjectManager ℕ ℕ ℕ) = some manager ∧
    ∃ manager' handed, CallMachine.run (threadObjectStep natDictFunc) manager twoObjectCalls =
        some (manager', handed) ∧
      ThreadObjectsRight natDictFunc [(1, 100), (2, 200)] twoObjectCalls handed.flatten manager' := by
  have hfits : DictFits [(1, 100), (2, 200)].length := by decide
  have hnames : ∀ call ∈ twoObjectCalls,
      (destroyOf natDictFunc [(1, 100), (2, 200)] call.name).isSome = true := by decide
  have hregister : ∃ manager, threadSingleObjectRegisterAll natDictFunc [(1, 100), (2, 200)]
      (threadSingleObjectModuleInit : ThreadSingleObjectManager ℕ ℕ ℕ) = some manager ∧
      CallMachine.Guarded (ThreadObjectAllowed natDictFunc) (threadObjectStep natDictFunc) manager
        twoObjectCalls := ⟨_, rfl, by decide +kernel⟩
  obtain ⟨manager, hregister, hok⟩ := hregister
  exact ⟨manager, hregister, threadSingleObject_run hregister hfits hnames hok⟩

/-- A second object under a name is lost, and a name without an object cannot be deleted. -/
theorem not_threadSingleObject_run :
    (∃ manager manager' handed, threadSingleObjectRegisterAll natDictFunc [(1, 100), (2, 200)]
        (threadSingleObjectModuleInit : ThreadSingleObjectManager ℕ ℕ ℕ) = some manager ∧
      CallMachine.run (threadObjectStep natDictFunc) manager [.set 1 (some 10), .set 1 (some 20)] =
        some (manager', handed) ∧
      ¬ThreadObjectsRight natDictFunc [(1, 100), (2, 200)] [.set 1 (some 10), .set 1 (some 20)]
        handed.flatten manager') ∧
    ∃ manager, threadSingleObjectRegisterAll natDictFunc [(1, 100), (2, 200)]
        (threadSingleObjectModuleInit : ThreadSingleObjectManager ℕ ℕ ℕ) = some manager ∧
      CallMachine.run (threadObjectStep natDictFunc) manager [.set 1 (some 10), .delete 2] = none := by
  refine ⟨?_, _, rfl, by decide +kernel⟩
  have heval : ((threadSingleObjectRegisterAll natDictFunc [(1, 100), (2, 200)]
      (threadSingleObjectModuleInit : ThreadSingleObjectManager ℕ ℕ ℕ)).bind fun manager ↦
        (CallMachine.run (threadObjectStep natDictFunc) manager
          [.set 1 (some 10), .set 1 (some 20)]).bind fun r ↦
            (threadSingleObjectGet natDictFunc r.1 1).map fun q ↦ q.2) = some (some 10) := by
    decide +kernel
  rw [Option.bind_eq_some_iff] at heval
  obtain ⟨manager, hregister, heval⟩ := heval
  rw [Option.bind_eq_some_iff] at heval
  obtain ⟨⟨manager', handed⟩, hrun, hget⟩ := heval
  refine ⟨manager, manager', handed, hregister, hrun, fun hright ↦ ?_⟩
  obtain ⟨manager'', hright⟩ := hright.get 1
  rw [hright, Option.map_some, Option.some.injEq] at hget
  have hlast : lastSet natDictFunc 1 [.set 1 (some 10), .set 1 (some 20)] ≠ some 10 := by decide
  exact hlast hget

end LatteC
