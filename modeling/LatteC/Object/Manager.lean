import LatteC.Odb.Basic
import Mathlib.Data.List.Nodup

/-!
# The object manager

`src/object/object_manager.c`: object types are registered under their names, each with the functions
that save and load its objects. A type's id is its slot in a table of 256 entries, so it depends on the
order of registration. `object_manager_save_registry` writes the names with their ids, and a process
that has registered the types in another order translates the ids of that file into its own
(`object_manager_load_registry`, `object_manager_load`).

The manager is a value here, not a global. Of an object only the `type` field and `ptr` are modelled;
the create, release and calc functions are left out, with the functions that call them. The save and load
functions are parameters.
-/

namespace LatteC

/-- `latte_error_code_enum`. -/
inductive LatteErrorCode where
  | ok | notFound | corruption | notSupported | invalidArgument | ioError
deriving DecidableEq

/-- `latte_error_t`. -/
structure LatteError where
  code : LatteErrorCode
  state : String
deriving DecidableEq

/-- `error_new`: the arguments behind the message are not used. -/
def errorNew (code : LatteErrorCode) (context message : String) : LatteError :=
  ⟨code, context ++ ": " ++ message⟩

/-- `latte_object_t`. -/
structure LatteObject (P : Type) where
  type : UInt8
  ptr : P
deriving DecidableEq

/-- The save and load function of a type. `loadFn` returns an error, or the object it has made
(`*out_obj`, which may still be `NULL`). -/
structure ObjectFns (P : Type) where
  saveFn : Oio → P → Oio × LatteErrorCode
  loadFn : Oio → Option (Oio × Except LatteError (Option P))

/-- `type_entry_t`, for a slot in use. -/
structure TypeEntry (P : Type) extends ObjectFns P where
  name : List UInt8

/-- `struct object_manager_t`: `types`, with `none` for a slot that is not `used`. -/
abbrev ObjectManager (P : Type) := List (Option (TypeEntry P))

/-- `OBJECT_MANAGER_MAX_TYPES`. -/
def objectManagerMaxTypes : ℕ := 256

variable {P : Type}

/-- `global_object_manager_init`. -/
def globalObjectManagerInit : ObjectManager P := List.replicate objectManagerMaxTypes none

/-- `find_type_id_by_name`. -/
def findTypeIdByName (m : ObjectManager P) (typeName : List UInt8) : Option ℕ :=
  m.findIdx? fun e ↦ e.any fun e ↦ cString e.name = cString typeName

/-- `first_free_slot`. -/
def firstFreeSlot (m : ObjectManager P) : Option ℕ := m.findIdx? Option.isNone

/-- `object_manager_register`; `none` is the answer `-1`. -/
def objectManagerRegister (m : ObjectManager P) (typeName : List UInt8) (fns : ObjectFns P) :
    Option (ObjectManager P) :=
  if (findTypeIdByName m typeName).isSome then none
  else (firstFreeSlot m).map fun slot ↦
    m.set slot (some { toObjectFns := fns, name := cString typeName })

/-- The entry in slot `type_id`, if the slot is in use. -/
def typeEntry (m : ObjectManager P) (typeId : UInt8) : Option (TypeEntry P) := (m[typeId.toNat]?).join

/-- `object_manager_get_type_name`. -/
def objectManagerGetTypeName (m : ObjectManager P) (typeId : UInt8) : Option (List UInt8) :=
  (typeEntry m typeId).map TypeEntry.name

/-- `object_manager_save`. -/
def objectManagerSave (m : ObjectManager P) (o : Oio) (obj : LatteObject P) : Except LatteError Oio :=
  match typeEntry m obj.type with
  | none => .error (errorNew .invalidArgument "object_manager_save" "no save_fn")
  | some e =>
    match odbWriteU8 o obj.type with
    | none => .error (errorNew .ioError "object_manager_save" "write type_id")
    | some o =>
      let (o, err) := e.saveFn o obj.ptr
      if err = .ok then .ok o
      else .error (errorNew err "object_manager_save" "save_fn failed")

/-- `object_manager_load`: the error it returns, or `*out_obj`. -/
def objectManagerLoad (m : ObjectManager P) (idMap : Option (UInt8 → UInt8)) (o : Oio) :
    Option (Oio × Except LatteError (LatteObject P)) :=
  (odbReadU8 o).bind fun
    | (o, none) => some (o, .error (errorNew .ioError "object_manager_load" "read type_id"))
    | (o, some savedId) =>
      let typeId := (idMap.map fun idMap ↦ idMap savedId).getD savedId
      if idMap.isSome ∧ typeId = 0xFF then
        some (o, .error
          (errorNew .corruption "object_manager_load" "no mapping for saved_id %u"))
      else
        match typeEntry m typeId with
        | none => some (o, .error (errorNew .invalidArgument "object_manager_load" "no load_fn"))
        | some e => (e.loadFn o).map fun
          | (o, .error err) => (o, .error err)
          | (o, .ok none) => (o, .error
              (errorNew .corruption "object_manager_load" "load_fn returned no object"))
          | (o, .ok (some ptr)) => (o, .ok ⟨typeId, ptr⟩)

/-- The loop of `object_manager_save_registry`, from slot `i` on. -/
def saveRegistryFrom (i : ℕ) : ObjectManager P → Oio → Except LatteError Oio
  | [], o => .ok o
  | none :: types, o => saveRegistryFrom (i + 1) types o
  | some e :: types, o =>
    match odbWriteU8 o (UInt8.ofNat i) with
    | none => .error (errorNew .ioError "object_manager_save_registry" "write type_id")
    | some o =>
      match odbWriteString o e.name with
      | none => .error (errorNew .ioError "object_manager_save_registry" "write type_name")
      | some o => saveRegistryFrom (i + 1) types o

/-- `object_manager_save_registry`. -/
def objectManagerSaveRegistry (m : ObjectManager P) (o : Oio) : Except LatteError Oio :=
  match odbWriteU32 o (UInt32.ofNat (m.countP Option.isSome)) with
  | none => .error (errorNew .ioError "object_manager_save_registry" "write count")
  | some o => saveRegistryFrom 0 m o

/-- The loop of `object_manager_load_registry`, for `count` more entries: `id_map` and the error. -/
def loadRegistryEntries (m : ObjectManager P) : (count : ℕ) → Oio → (UInt8 → UInt8) →
    Option (Oio × (UInt8 → UInt8) × Option LatteError)
  | 0, o, idMap => some (o, idMap, none)
  | count + 1, o, idMap => (odbReadU8 o).bind fun
    | (o, none) =>
      some (o, idMap, some (errorNew .ioError "object_manager_load_registry" "read saved_id"))
    | (o, some savedId) => (odbReadString o).bind fun
      | (o, none) =>
        some (o, idMap, some (errorNew .ioError "object_manager_load_registry" "read type_name"))
      | (o, some typeName) =>
        match findTypeIdByName m typeName with
        | none => some (o, idMap,
            some (errorNew .notFound "object_manager_load_registry" "type not registered"))
        | some currentId =>
          loadRegistryEntries m count o (Function.update idMap savedId (UInt8.ofNat currentId))

/-- `object_manager_load_registry`. -/
def objectManagerLoadRegistry (m : ObjectManager P) (o : Oio) :
    Option (Oio × (UInt8 → UInt8) × Option LatteError) :=
  let idMap : UInt8 → UInt8 := fun _ ↦ 0xFF
  (odbReadU32 o).bind fun
    | (o, none) =>
      some (o, idMap, some (errorNew .ioError "object_manager_load_registry" "read count"))
    | (o, some count) => loadRegistryEntries m count.toNat o idMap

/-- A NUL-terminated string, as the bytes before the NUL. -/
@[ext] structure CStr where
  bytes : List UInt8
  zero_notMem : 0 ∉ bytes
deriving DecidableEq

/-- Register the types in the order given, in a new manager. -/
def registerAll (fns : CStr → ObjectFns P) (names : List CStr) : Option (ObjectManager P) :=
  names.foldlM (fun m name ↦ objectManagerRegister m name.bytes (fns name)) globalObjectManagerInit

/-- Save one object after the other. -/
def saveAll (m : ObjectManager P) (o : Oio) (objs : List (LatteObject P)) : Except LatteError Oio :=
  objs.foldlM (objectManagerSave m) o

/-- Load `n` objects. -/
def loadAll (m : ObjectManager P) (idMap : UInt8 → UInt8) (o : Oio) (n : ℕ) :
    Option (Oio × List (Except LatteError (LatteObject P))) :=
  CallMachine.run (fun o (_ : Unit) ↦ objectManagerLoad m (some idMap) o) o (List.replicate n ())

/-! ## Registration -/

section Registration

variable (fns : CStr → ObjectFns P)

/-- The entry of a type. -/
def nameEntry (name : CStr) : TypeEntry P := { toObjectFns := fns name, name := name.bytes }

/-- The manager after the types `names` were registered in this order. -/
def registered (names : List CStr) : ObjectManager P :=
  names.map (fun name ↦ some (nameEntry fns name)) ++
    List.replicate (objectManagerMaxTypes - names.length) none

theorem findTypeIdByName_registered (names : List CStr) (name : CStr) :
    findTypeIdByName (registered fns names) name.bytes = names.findIdx? (· = name) := by
  have hname (n : CStr) : (some (nameEntry fns n)).any (fun e ↦ cString e.name = cString name.bytes) =
      decide (n = name) := by
    rw [Option.any_some, nameEntry, cString_eq_self n.zero_notMem, cString_eq_self name.zero_notMem]
    exact decide_eq_decide.mpr CStr.ext_iff.symm
  have hfree (k : ℕ) : (List.replicate k (none : Option (TypeEntry P))).findIdx?
      (fun e ↦ e.any fun e ↦ cString e.name = cString name.bytes) = none := by
    rw [List.findIdx?_eq_none_iff]
    intro e he
    rw [List.eq_of_mem_replicate he, Option.any_none]
  rw [findTypeIdByName, registered, List.findIdx?_append, List.findIdx?_map, hfree, Option.map_none,
    Option.or_none]
  congr 1
  exact funext hname

theorem findTypeIdByName_of_mem {names : List CStr} {name : CStr} (h : name ∈ names) :
    findTypeIdByName (registered fns names) name.bytes = some (names.idxOf name) := by
  rw [findTypeIdByName_registered, List.findIdx?_eq_some_of_exists ⟨name, h, by simp⟩, List.idxOf]
  congr 2

theorem firstFreeSlot_registered {names : List CStr} (h : names.length < objectManagerMaxTypes) :
    firstFreeSlot (registered fns names) = some names.length := by
  obtain ⟨k, hk⟩ := Nat.exists_eq_add_of_lt h
  have hfree : objectManagerMaxTypes - names.length = k + 1 := by omega
  have hused : (names.map fun name ↦ some (nameEntry fns name)).findIdx? Option.isNone = none := by
    rw [List.findIdx?_eq_none_iff]
    intro e he
    obtain ⟨n, -, rfl⟩ := List.mem_map.mp he
    rfl
  rw [firstFreeSlot, registered, hfree, List.findIdx?_append, hused, Option.none_or,
    List.replicate_succ, List.findIdx?_cons, Option.isNone_none, if_pos rfl, Option.map_some,
    Nat.zero_add, List.length_map]

theorem objectManagerRegister_registered {names : List CStr} {name : CStr} (hname : name ∉ names)
    (h : names.length < objectManagerMaxTypes) :
    objectManagerRegister (registered fns names) name.bytes (fns name) =
      some (registered fns (names ++ [name])) := by
  have hnew : findTypeIdByName (registered fns names) name.bytes = none := by
    rw [findTypeIdByName_registered, List.findIdx?_eq_none_iff]
    intro n hn
    exact decide_eq_false fun heq ↦ hname (heq ▸ hn)
  obtain ⟨k, hk⟩ := Nat.exists_eq_add_of_lt h
  have hfree : objectManagerMaxTypes - names.length = k + 1 := by omega
  have hfree' : objectManagerMaxTypes - (names ++ [name]).length = k := by
    rw [List.length_append, List.length_singleton]
    omega
  rw [objectManagerRegister, hnew, firstFreeSlot_registered fns h, Option.isSome_none,
    if_neg Bool.false_ne_true, Option.map_some, registered, registered, hfree, hfree',
    List.replicate_succ, List.set_append_right _ _ (by simp), List.length_map, Nat.sub_self,
    List.set_cons_zero, cString_eq_self name.zero_notMem]
  simp [nameEntry]

theorem registerAll_eq {names : List CStr} (hnodup : names.Nodup)
    (hlen : names.length ≤ objectManagerMaxTypes) :
    registerAll fns names = some (registered fns names) := by
  -- after the names `done`, with the names `rest` to come
  suffices h : ∀ rest done : List CStr, (done ++ rest).Nodup →
      (done ++ rest).length ≤ objectManagerMaxTypes →
      rest.foldlM (fun m name ↦ objectManagerRegister m name.bytes (fns name)) (registered fns done) =
        some (registered fns (done ++ rest)) from h names [] hnodup hlen
  intro rest
  induction rest with
  | nil =>
    intro done _ _
    rw [List.foldlM_nil, List.append_nil]
    rfl
  | cons name rest ih =>
    intro done hnodup hlen
    have hname : name ∉ done := by
      intro hmem
      exact List.disjoint_of_nodup_append hnodup hmem (by simp)
    rw [List.length_append, List.length_cons] at hlen
    rw [List.foldlM_cons, objectManagerRegister_registered fns hname (by omega),
      Option.bind_eq_bind, Option.bind_some, ih (done ++ [name]) (by simpa using hnodup)
        (by simp only [List.length_append, List.length_cons, List.length_nil]; omega)]
    simp

theorem typeEntry_registered (names : List CStr) (typeId : UInt8) :
    typeEntry (registered fns names) typeId = (names[typeId.toNat]?).map (nameEntry fns) := by
  rw [typeEntry, registered, List.getElem?_append, List.length_map]
  split_ifs with hlt
  · rw [List.getElem?_map, List.getElem?_eq_getElem hlt]
    rfl
  · rw [List.getElem?_eq_none (not_lt.mp hlt), List.getElem?_replicate]
    split_ifs <;> rfl

end Registration

/-! ## The registry in the stream -/

/-- The records of the registry, from slot `i` on. -/
def registryRecords (i : ℕ) : List CStr → List OdbRecord
  | [] => []
  | name :: names => .u8 (UInt8.ofNat i) :: .string name.bytes :: registryRecords (i + 1) names

theorem saveRegistryFrom_free (k i : ℕ) (o : Oio) :
    saveRegistryFrom i (List.replicate k (none : Option (TypeEntry P))) o = .ok o := by
  induction k generalizing i with
  | zero => rfl
  | succ k ih => rw [List.replicate_succ, saveRegistryFrom, ih]

theorem saveRegistryFrom_eq_ok {fns : CStr → ObjectFns P} {names : List CStr} {i k : ℕ} {o o' : Oio}
    (h : saveRegistryFrom i (names.map (fun name ↦ some (nameEntry fns name)) ++
      List.replicate k none) o = .ok o') (ho : o.ptr.length < 2 ^ 63) :
    o'.ptr = o.ptr ++ odbBytes (registryRecords i names) ∧ o'.ptr.length < 2 ^ 63 ∧
      ∀ r ∈ registryRecords i names, r.Fits := by
  induction names generalizing i o with
  | nil =>
    rw [List.map_nil, List.nil_append, saveRegistryFrom_free, Except.ok.injEq] at h
    subst h
    simpa [registryRecords] using ho
  | cons name names ih =>
    rw [List.map_cons, List.cons_append, saveRegistryFrom] at h
    split at h
    · cases h
    · rename_i o₁ ho₁
      split at h
      · cases h
      · rename_i o₂ ho₂
        have hu8 := odbWrite_fits (r := .u8 (UInt8.ofNat i)) ho₁
        rw [← odbWrite, odbWrite_eq hu8.1 hu8.2, Option.some.injEq] at ho₁
        have hstr := odbWrite_fits (r := .string name.bytes) ho₂
        have heq : o₂.ptr = o.ptr ++ (OdbRecord.u8 (UInt8.ofNat i)).bytes ++
            (OdbRecord.string name.bytes).bytes := by
          change odbWrite o₁ (.string name.bytes) = some o₂ at ho₂
          rw [odbWrite_eq hstr.1 hstr.2, Option.some.injEq] at ho₂
          rw [← ho₂, ← ho₁]
        have hlt : o₂.ptr.length < 2 ^ 63 := by
          rw [heq, List.length_append]
          rw [← ho₁] at hstr
          exact hstr.2
        obtain ⟨hptr, hsize, hfits⟩ := ih h hlt
        refine ⟨?_, hsize, ?_⟩
        · rw [hptr, heq, registryRecords, odbBytes_cons, odbBytes_cons, List.append_assoc,
            List.append_assoc]
        · intro r hr
          rw [registryRecords, List.mem_cons, List.mem_cons] at hr
          rcases hr with rfl | rfl | hr
          · exact hu8.1
          · exact hstr.1
          · exact hfits r hr

/-- Loading the entries from slot `i` on fills in the map from slot `i` on. -/
theorem loadRegistryEntries_spec (fns : CStr → ObjectFns P) {current names : List CStr} {i : ℕ}
    {o : Oio} {A R : List UInt8} (idMap : UInt8 → UInt8) (hi : i + names.length ≤ 256)
    (hmem : ∀ name ∈ names, name ∈ current) (hfits : ∀ r ∈ registryRecords i names, r.Fits)
    (h : o.At A (odbBytes (registryRecords i names) ++ R)) :
    ∃ o' idMap', loadRegistryEntries (registered fns current) names.length o idMap =
        some (o', idMap', none) ∧
      o'.At (A ++ odbBytes (registryRecords i names)) R ∧
      (∀ id : UInt8, id.toNat < i → idMap' id = idMap id) ∧
      ∀ (id : UInt8) name, i ≤ id.toNat → names[id.toNat - i]? = some name →
        idMap' id = UInt8.ofNat (current.idxOf name) := by
  induction names generalizing i o A idMap with
  | nil =>
    refine ⟨o, idMap, rfl, by simpa [registryRecords] using h, fun _ _ ↦ rfl, ?_⟩
    intro id name _ hname
    rw [List.getElem?_nil] at hname
    cases hname
  | cons name names ih =>
    simp only [registryRecords, odbBytes_cons, List.append_assoc, List.mem_cons,
      List.length_cons] at h hfits hi
    obtain ⟨o₁, ho₁, h₁⟩ := odbReadU8_reads (UInt8.ofNat i) h
    obtain ⟨o₂, ho₂, h₂⟩ := odbReadString_reads (hfits (.string name.bytes) (by simp)) h₁
    obtain ⟨o', idMap', hload, hat, hbelow, habove⟩ := ih (i := i + 1)
      (Function.update idMap (UInt8.ofNat i) (UInt8.ofNat (current.idxOf name)))
      (by omega) (fun n hn ↦ hmem n (by simp [hn])) (fun r hr ↦ hfits r (by simp [hr])) h₂
    have hinat : (UInt8.ofNat i).toNat = i := by
      rw [UInt8.toNat_ofNat']
      omega
    refine ⟨o', idMap', ?_, ?_, ?_, ?_⟩
    · rw [List.length_cons, loadRegistryEntries, ho₁, Option.bind_some]
      simp only [ho₂, Option.bind_some, findTypeIdByName_of_mem fns (hmem name (by simp))]
      exact hload
    · simpa [registryRecords, OdbRecord.bytes] using hat
    · intro id hid
      have hne : id ≠ UInt8.ofNat i := by
        rintro rfl
        omega
      rw [hbelow id (by omega), Function.update_of_ne hne]
    · intro id n hid hn
      rcases Nat.lt_or_eq_of_le hid with hlt | heq
      · have hsub : id.toNat - i = (id.toNat - (i + 1)) + 1 := by omega
        rw [hsub, List.getElem?_cons_succ] at hn
        exact habove id n hlt hn
      · rw [← heq, Nat.sub_self, List.getElem?_cons_zero, Option.some.injEq] at hn
        subst hn
        have hid' : id = UInt8.ofNat i := by rw [heq, UInt8.ofNat_toNat]
        rw [hbelow id (by omega), hid', Function.update_self]

/-- The entries are written as long as their names fit, and the buffer can hold them. -/
theorem saveRegistryFrom_registered {fns : CStr → ObjectFns P} {names : List CStr} {i k : ℕ} {o : Oio}
    (hfits : ∀ name ∈ names, name.bytes.length ≤ 2 ^ 32 - 1)
    (hsize : o.ptr.length + (odbBytes (registryRecords i names)).length < 2 ^ 63) :
    saveRegistryFrom i (names.map (fun name ↦ some (nameEntry fns name)) ++ List.replicate k none) o =
      .ok ⟨o.ptr ++ odbBytes (registryRecords i names),
        o.pos + (odbBytes (registryRecords i names)).length⟩ := by
  induction names generalizing i o with
  | nil => simpa [registryRecords] using saveRegistryFrom_free k i o
  | cons name names ih =>
    simp only [registryRecords, odbBytes_cons, List.length_append] at hsize
    have hu8 := odbWrite_eq (o := o) (r := .u8 (UInt8.ofNat i)) trivial (by omega)
    have hstr := odbWrite_eq (r := .string name.bytes) (hfits name (by simp))
      (o := ⟨o.ptr ++ (OdbRecord.u8 (UInt8.ofNat i)).bytes,
        o.pos + (OdbRecord.u8 (UInt8.ofNat i)).bytes.length⟩) (by rw [List.length_append]; omega)
    simp only [odbWrite] at hu8 hstr
    rw [List.map_cons, List.cons_append, saveRegistryFrom, hu8]
    simp only [nameEntry, hstr]
    rw [← funext fun name ↦ congrArg some (nameEntry.eq_1 fns name),
      ih (fun n hn ↦ hfits n (by simp [hn])) (by simp only [List.length_append]; omega)]
    simp [registryRecords, Nat.add_assoc]

theorem countP_registered (fns : CStr → ObjectFns P) (names : List CStr) :
    (registered fns names).countP Option.isSome = names.length := by
  rw [registered, List.countP_append, List.countP_map, List.countP_replicate]
  simp [Function.comp_def]

/-- `object_manager_save_registry` succeeds as long as the names fit, and the buffer can hold them. -/
theorem saveRegistry_registered (fns : CStr → ObjectFns P) {names : List CStr}
    (hlen : names.length ≤ 256) (hfits : ∀ name ∈ names, name.bytes.length ≤ 2 ^ 32 - 1)
    (hsize : 4 + (odbBytes (registryRecords 0 names)).length < 2 ^ 63) :
    objectManagerSaveRegistry (registered fns names) odbOioCreateBuffer =
      .ok ⟨Block.leBytes 4 names.length ++ odbBytes (registryRecords 0 names),
        4 + (odbBytes (registryRecords 0 names)).length⟩ := by
  have hcount : (UInt32.ofNat names.length).toNat = names.length := by
    rw [UInt32.toNat_ofNat']
    omega
  have hwrite : odbWriteU32 odbOioCreateBuffer (UInt32.ofNat names.length) =
      some ⟨Block.leBytes 4 names.length, 4⟩ := by
    have h := odbWrite_eq (o := odbOioCreateBuffer) (r := .u32 (UInt32.ofNat names.length)) trivial
      (by simp [odbOioCreateBuffer, OdbRecord.bytes])
    simpa [odbWrite, odbOioCreateBuffer, OdbRecord.bytes, hcount] using h
  rw [objectManagerSaveRegistry, countP_registered, hwrite]
  exact saveRegistryFrom_registered hfits (by rwa [Block.length_leBytes])

/-- **The registry is translated.** What `object_manager_load_registry` reads from the registry of the
types `saved`, in a process with the types `current`, maps the slot of every type to its slot there. -/
theorem loadRegistry_saveRegistry {fns : CStr → ObjectFns P} (fns' : CStr → ObjectFns P)
    {saved current : List CStr}
    (hlen : saved.length ≤ 256) (hmem : ∀ name ∈ saved, name ∈ current) {o : Oio}
    (h : objectManagerSaveRegistry (registered fns saved) odbOioCreateBuffer = .ok o) :
    o.ptr.length < 2 ^ 63 ∧ ∀ ⦃r R⦄, Oio.At r [] (o.ptr ++ R) → ∃ r' idMap,
      objectManagerLoadRegistry (registered fns' current) r = some (r', idMap, none) ∧
      r'.At o.ptr R ∧
      ∀ (id : UInt8) name, saved[id.toNat]? = some name →
        idMap id = UInt8.ofNat (current.idxOf name) := by
  rw [objectManagerSaveRegistry, countP_registered] at h
  split at h
  · cases h
  · rename_i o₁ ho₁
    have hcount := odbWrite_fits (r := .u32 (UInt32.ofNat saved.length)) ho₁
    rw [← odbWrite, odbWrite_eq hcount.1 hcount.2, Option.some.injEq] at ho₁
    obtain ⟨hptr, hsize, hfits⟩ := saveRegistryFrom_eq_ok h (by
      rw [← ho₁, List.length_append]
      exact hcount.2)
    refine ⟨hsize, ?_⟩
    intro r R hr
    have hsaved : (UInt32.ofNat saved.length).toNat = saved.length := by
      rw [UInt32.toNat_ofNat']
      omega
    rw [hptr, ← ho₁] at hr
    simp only [odbOioCreateBuffer, List.nil_append, List.append_assoc] at hr
    obtain ⟨r₁, hr₁, h₁⟩ := odbReadU32_reads (UInt32.ofNat saved.length) hr
    obtain ⟨r', idMap, hload, hat, -, hmap⟩ := loadRegistryEntries_spec fns'
      (fun _ ↦ 0xFF) (by omega) hmem hfits h₁
    refine ⟨r', idMap, ?_, ?_, fun id name ↦ hmap id name (Nat.zero_le _)⟩
    · rw [objectManagerLoadRegistry, hr₁]
      simp only [Option.bind_some, hsaved]
      exact hload
    · rw [hptr, ← ho₁]
      simpa [odbOioCreateBuffer, OdbRecord.bytes] using hat

/-! ## Objects in the stream -/

/-- What the manager relies on: the load function of a type reads what its save function has
written, as an object `loaded ptr`, and no more. The buffer stays one that can be allocated. -/
structure ObjectFns.Restores (save load : ObjectFns P) (loaded : P → P) : Prop where
  size_lt : ∀ ⦃o o' ptr⦄, save.saveFn o ptr = (o', .ok) → o.ptr.length < 2 ^ 63 →
    o'.ptr.length < 2 ^ 63
  reads : ∀ ⦃o o' ptr⦄, save.saveFn o ptr = (o', .ok) → ∃ X, o'.ptr = o.ptr ++ X ∧
    ∀ ⦃r A R⦄, Oio.At r A (X ++ R) →
      ∃ r', load.loadFn r = some (r', .ok (some (loaded ptr))) ∧ r'.At (A ++ X) R

/-- The reply to loading `obj` again is an object made by the load function of the type that has
the name of `obj`'s type. -/
def Dispatched (saving loading : ObjectManager P) (loaded : List UInt8 → P → P) (obj : LatteObject P)
    (reply : Except LatteError (LatteObject P)) : Prop :=
  ∃ name typeId, objectManagerGetTypeName saving obj.type = some name ∧
    objectManagerGetTypeName loading typeId = some name ∧ reply = .ok ⟨typeId, loaded name obj.ptr⟩

section Objects

variable {fns fns' : CStr → ObjectFns P} {saved current : List CStr} {loaded : List UInt8 → P → P}
  {idMap : UInt8 → UInt8}

theorem objectManagerGetTypeName_registered (names : List CStr) (typeId : UInt8) :
    objectManagerGetTypeName (registered fns names) typeId =
      (names[typeId.toNat]?).map CStr.bytes := by
  rw [objectManagerGetTypeName, typeEntry_registered, Option.map_map]
  rfl

/-- Saving an object writes its type's slot and then what the save function writes. -/
theorem objectManagerSave_eq_ok {o o' : Oio} {obj : LatteObject P}
    (hrest : ∀ name ∈ saved, (fns name).Restores (fns' name) (loaded name.bytes))
    (h : objectManagerSave (registered fns saved) o obj = .ok o') :
    ∃ name X, saved[obj.type.toNat]? = some name ∧ o'.ptr = o.ptr ++ ([obj.type] ++ X) ∧
      o'.ptr.length < 2 ^ 63 ∧ ∀ ⦃r A R⦄, Oio.At r A (X ++ R) →
        ∃ r', (fns' name).loadFn r = some (r', .ok (some (loaded name.bytes obj.ptr))) ∧
          r'.At (A ++ X) R := by
  rw [objectManagerSave, typeEntry_registered] at h
  cases hname : saved[obj.type.toNat]? with
  | none =>
    rw [hname] at h
    cases h
  | some name =>
    rw [hname, Option.map_some] at h
    simp only at h
    split at h
    · cases h
    · rename_i o₁ ho₁
      have hfits := odbWrite_fits (r := .u8 obj.type) ho₁
      rw [← odbWrite, odbWrite_eq hfits.1 hfits.2, Option.some.injEq] at ho₁
      obtain ⟨⟨o₂, err⟩, hsave⟩ : ∃ p, (fns name).saveFn o₁ obj.ptr = p := ⟨_, rfl⟩
      simp only [nameEntry, hsave] at h
      split_ifs at h with herr
      rw [Except.ok.injEq] at h
      subst h herr
      have hres := hrest name (List.mem_of_getElem? hname)
      obtain ⟨X, hX, hread⟩ := hres.reads hsave
      refine ⟨name, X, rfl, ?_, hres.size_lt hsave ?_, hread⟩
      · rw [hX, ← ho₁, List.append_assoc]
        rfl
      · rw [← ho₁, List.length_append]
        exact hfits.2

/-- Loading an object whose type is not in the last slot. -/
theorem objectManagerLoad_mapped (fns' : CStr → ObjectFns P) {name : CStr} {id : UInt8} {ptr : P}
    {r : Oio} {A X R : List UInt8}
    (hmem : name ∈ current) (hlen : current.length ≤ 256)
    (hmap : idMap id = UInt8.ofNat (current.idxOf name)) (hlast : current[255]? ≠ some name)
    (hload : ∀ ⦃r A R⦄, Oio.At r A (X ++ R) →
      ∃ r', (fns' name).loadFn r = some (r', .ok (some ptr)) ∧ r'.At (A ++ X) R)
    (h : r.At A ([id] ++ X ++ R)) :
    ∃ r' typeId, objectManagerLoad (registered fns' current) (some idMap) r =
        some (r', .ok ⟨typeId, ptr⟩) ∧
      objectManagerGetTypeName (registered fns' current) typeId = some name.bytes ∧
      r'.At (A ++ ([id] ++ X)) R := by
  have hslot : current[current.idxOf name]? = some name := List.getElem?_idxOf hmem
  have hlt := List.idxOf_lt_length_of_mem hmem
  have hnat : (UInt8.ofNat (current.idxOf name)).toNat = current.idxOf name := by
    rw [UInt8.toNat_ofNat']
    omega
  have hne : UInt8.ofNat (current.idxOf name) ≠ 0xFF := by
    intro heq
    have hidx : current.idxOf name = 255 := by rw [← hnat, heq]; rfl
    rw [hidx] at hslot
    exact hlast hslot
  rw [List.append_assoc] at h
  obtain ⟨r₁, hr₁, h₁⟩ := odbReadU8_reads id h
  obtain ⟨r₂, hr₂, h₂⟩ := hload h₁
  refine ⟨r₂, UInt8.ofNat (current.idxOf name), ?_, ?_, by rwa [← List.append_assoc]⟩
  · rw [objectManagerLoad, hr₁]
    simp only [Option.bind_some, Option.map_some, Option.getD_some, hmap, hne, and_false, if_false,
      typeEntry_registered, hnat, hslot, nameEntry, hr₂]
  · rw [objectManagerGetTypeName_registered, hnat, hslot, Option.map_some]

/-- The id of the last slot is also the mark of an id without a mapping. -/
theorem objectManagerLoad_last (fns' : CStr → ObjectFns P) (current : List CStr) {id : UInt8} {r : Oio}
    {A R : List UInt8} (hmap : idMap id = 0xFF)
    (h : r.At A ([id] ++ R)) :
    ∃ r', objectManagerLoad (registered fns' current) (some idMap) r = some (r', .error
      (errorNew .corruption "object_manager_load" "no mapping for saved_id %u")) := by
  obtain ⟨r₁, hr₁, -⟩ := odbReadU8_reads id h
  refine ⟨r₁, ?_⟩
  rw [objectManagerLoad, hr₁]
  simp only [Option.bind_some, Option.map_some, Option.getD_some, hmap, Option.isSome_some,
    and_self, if_true]

/-- Loading the objects again, from the place where they were saved. -/
theorem loadAll_dispatched_iff (hnodup : current.Nodup) (hlen : current.length ≤ 256)
    (hmem : ∀ name ∈ saved, name ∈ current)
    (hrest : ∀ name ∈ saved, (fns name).Restores (fns' name) (loaded name.bytes))
    {objs : List (LatteObject P)} {o o' : Oio} (h : saveAll (registered fns saved) o objs = .ok o')
    (ho : o.ptr.length < 2 ^ 63) :
    ∃ T, o'.ptr = o.ptr ++ T ∧ o'.ptr.length < 2 ^ 63 ∧
      ∀ ⦃idMap : UInt8 → UInt8⦄, (∀ (id : UInt8) name, saved[id.toNat]? = some name →
        idMap id = UInt8.ofNat (current.idxOf name)) → ∀ ⦃r A R⦄, Oio.At r A (T ++ R) →
      ((∃ r' replies, loadAll (registered fns' current) idMap r objs.length = some (r', replies) ∧
        List.Forall₂ (Dispatched (registered fns saved) (registered fns' current) loaded)
          objs replies) ↔
      ∀ obj ∈ objs, objectManagerGetTypeName (registered fns' current) 255 ≠
        objectManagerGetTypeName (registered fns saved) obj.type) := by
  induction objs generalizing o with
  | nil =>
    rw [saveAll, List.foldlM_nil] at h
    cases h
    refine ⟨[], by simp, ho, fun idMap _ r A R _ ↦ ?_⟩
    simp only [List.not_mem_nil, false_imp_iff, implies_true, iff_true]
    exact ⟨r, [], rfl, List.Forall₂.nil⟩
  | cons obj objs ih =>
    rw [saveAll, List.foldlM_cons] at h
    cases hobj : objectManagerSave (registered fns saved) o obj with
    | error e =>
      rw [hobj] at h
      cases h
    | ok o₁ =>
      rw [hobj] at h
      obtain ⟨name, X, hname, hptr, hsize, hload⟩ := objectManagerSave_eq_ok hrest hobj
      obtain ⟨T, hT, hsize', hiff⟩ := ih h hsize
      refine ⟨[obj.type] ++ X ++ T, by rw [hT, hptr, List.append_assoc], hsize', ?_⟩
      intro idMap hmap r A R hr
      rw [List.append_assoc _ T R] at hr
      have hcurrent : name ∈ current := hmem name (List.mem_of_getElem? hname)
      have hsaved : objectManagerGetTypeName (registered fns saved) obj.type = some name.bytes := by
        rw [objectManagerGetTypeName_registered, hname, Option.map_some]
      have hlast : objectManagerGetTypeName (registered fns' current) 255 = some name.bytes ↔
          current[255]? = some name := by
        rw [objectManagerGetTypeName_registered, Option.map_eq_some_iff]
        constructor
        · rintro ⟨n, hn, heq⟩
          rwa [CStr.ext heq] at hn
        · exact fun hn ↦ ⟨name, hn, rfl⟩
      simp only [List.forall_mem_cons, hsaved, ne_eq, hlast]
      by_cases h255 : current[255]? = some name
      · -- the object's type is in the last slot
        have hidx : idMap obj.type = 0xFF := by
          obtain ⟨hlt, hget⟩ := List.getElem?_eq_some_iff.mp h255
          rw [hmap obj.type name hname, ← hget, hnodup.idxOf_getElem]
          rfl
        rw [List.append_assoc] at hr
        obtain ⟨r₁, hr₁⟩ := objectManagerLoad_last fns' current hidx hr
        simp only [h255, not_true_eq_false, false_and, iff_false, not_exists, not_and]
        intro r' replies hrun hdisp
        obtain ⟨s, e, es, hstep, -, rfl⟩ := CallMachine.run_cons_eq_some hrun
        rw [hr₁, Option.some.injEq, Prod.mk.injEq] at hstep
        obtain ⟨n, t, -, -, heq⟩ := (List.forall₂_cons.mp hdisp).1
        rw [← hstep.2] at heq
        cases heq
      · obtain ⟨r₁, typeId, hr₁, htype, h₁⟩ := objectManagerLoad_mapped fns' hcurrent hlen
          (hmap obj.type name hname) h255 hload hr
        have hdisp : Dispatched (registered fns saved) (registered fns' current) loaded obj
            (.ok ⟨typeId, loaded name.bytes obj.ptr⟩) := ⟨name.bytes, typeId, hsaved, htype, rfl⟩
        simp only [h255, not_false_eq_true, true_and, ← hiff hmap h₁]
        rw [loadAll, List.length_cons, List.replicate_succ, CallMachine.run_cons_of_step hr₁,
          ← loadAll]
        constructor
        · rintro ⟨r', replies, hrun, hall⟩
          obtain ⟨⟨s, es⟩, hrun, heq⟩ := Option.map_eq_some_iff.mp hrun
          rw [Prod.mk.injEq] at heq
          rw [← heq.2, List.forall₂_cons] at hall
          exact ⟨s, es, hrun, hall.2⟩
        · rintro ⟨r', replies, hrun, hall⟩
          exact ⟨r', _ :: replies, by rw [hrun, Option.map_some], .cons hdisp hall⟩

end Objects

/-- **Objects are loaded by their own type, except that of the last slot.** Types are registered in one
order, the registry and objects of them are saved, and another process has registered the types in
another order. Loading the registry there, and then the objects, hands every object to the load
function of the type with the same name if and only if no object is of the type in slot 255. -/
theorem object_registry_remapped_iff (saved current : List CStr) (hperm : saved.Perm current)
    (hnodup : saved.Nodup) (hlen : saved.length ≤ 256) (fns fns' : CStr → ObjectFns P)
    (loaded : List UInt8 → P → P)
    (hrest : ∀ name ∈ saved, (fns name).Restores (fns' name) (loaded name.bytes)) :
    ∃ m m', registerAll fns saved = some m ∧ registerAll fns' current = some m' ∧
      ∀ objs o o', objectManagerSaveRegistry m odbOioCreateBuffer = .ok o →
        saveAll m o objs = .ok o' →
        ((∃ r idMap r' replies,
          objectManagerLoadRegistry m' (odbOioBufferRewind o') = some (r, idMap, none) ∧
          loadAll m' idMap r objs.length = some (r', replies) ∧
          List.Forall₂ (Dispatched m m' loaded) objs replies) ↔
        ∀ obj ∈ objs, objectManagerGetTypeName m' 255 ≠ objectManagerGetTypeName m obj.type) := by
  have hnodup' := hperm.nodup_iff.mp hnodup
  have hlen' : current.length ≤ 256 := hperm.length_eq ▸ hlen
  have hmem : ∀ name ∈ saved, name ∈ current := fun name hname ↦ hperm.mem_iff.mp hname
  refine ⟨_, _, registerAll_eq fns hnodup hlen, registerAll_eq fns' hnodup' hlen', ?_⟩
  intro objs o o' hreg hsave
  obtain ⟨hsize, hload⟩ := loadRegistry_saveRegistry fns' hlen hmem hreg
  obtain ⟨T, hT, hsize', hiff⟩ :=
    loadAll_dispatched_iff hnodup' hlen' hmem hrest hsave hsize
  have hat : (odbOioBufferRewind o').At [] (o.ptr ++ T) := by
    refine ⟨hT, rfl, ?_⟩
    change o'.ptr.length < 2 ^ 64
    omega
  obtain ⟨r, idMap, hr, hrat, hmap⟩ := hload hat
  rw [← List.append_nil T] at hrat
  rw [← hiff hmap hrat]
  constructor
  · rintro ⟨r₁, idMap₁, r', replies, hr₁, hrun, hall⟩
    rw [hr, Option.some.injEq, Prod.mk.injEq, Prod.mk.injEq] at hr₁
    obtain ⟨rfl, rfl, -⟩ := hr₁
    exact ⟨r', replies, hrun, hall⟩
  · rintro ⟨r', replies, hrun, hall⟩
    exact ⟨r, idMap, r', replies, hr, hrun, hall⟩

/-- A type whose objects are single bytes. -/
def byteFns : ObjectFns UInt8 where
  saveFn o ptr :=
    match odbWriteU8 o ptr with
    | none => (o, .ioError)
    | some o => (o, .ok)
  loadFn o := (odbReadU8 o).map fun r ↦ (r.1, .ok r.2)

theorem byteFns_restores : byteFns.Restores byteFns id := by
  have hsave {o o' : Oio} {ptr : UInt8} (h : byteFns.saveFn o ptr = (o', .ok)) :
      odbWriteU8 o ptr = some o' := by
    cases hw : odbWriteU8 o ptr with
    | none => simp [byteFns, hw] at h
    | some o₁ => simpa [byteFns, hw] using h
  refine ⟨?_, ?_⟩
  · intro o o' ptr h _
    have hfits := odbWrite_fits (r := .u8 ptr) (hsave h)
    have heq := hsave h
    rw [← odbWrite, odbWrite_eq hfits.1 hfits.2, Option.some.injEq] at heq
    rw [← heq, List.length_append]
    exact hfits.2
  · intro o o' ptr h
    have hfits := odbWrite_fits (r := .u8 ptr) (hsave h)
    have heq := hsave h
    rw [← odbWrite, odbWrite_eq hfits.1 hfits.2, Option.some.injEq] at heq
    refine ⟨[ptr], by rw [← heq]; rfl, ?_⟩
    intro r A R hr
    obtain ⟨r', hr', hat⟩ := odbReadU8_reads ptr hr
    exact ⟨r', by simp [byteFns, hr'], hat⟩

theorem object_registry_remapped_iff_test : ∃ m m' : ObjectManager UInt8,
    registerAll (fun _ ↦ byteFns) [⟨[97], by decide⟩, ⟨[98], by decide⟩] = some m ∧
    registerAll (fun _ ↦ byteFns) [⟨[98], by decide⟩, ⟨[97], by decide⟩] = some m' ∧
    ∃ r idMap r' replies, objectManagerLoadRegistry m'
        ⟨[2, 0, 0, 0, 0, 1, 0, 0, 0, 97, 1, 1, 0, 0, 0, 98, 0, 7, 1, 8], 0⟩ =
      some (r, idMap, none) ∧
      loadAll m' idMap r 2 = some (r', replies) ∧
      List.Forall₂ (Dispatched m m' fun _ ↦ id) [⟨0, 7⟩, ⟨1, 8⟩] replies := by
  obtain ⟨m, m', hm, hm', h⟩ := object_registry_remapped_iff
    [⟨[97], by decide⟩, ⟨[98], by decide⟩] [⟨[98], by decide⟩, ⟨[97], by decide⟩]
    (List.Perm.swap _ _ _) (by decide) (by decide) (fun _ ↦ byteFns) (fun _ ↦ byteFns)
    (fun _ ↦ id) (fun _ _ ↦ byteFns_restores)
  refine ⟨m, m', hm, hm', ?_⟩
  rw [registerAll_eq _ (by decide) (by decide), Option.some.injEq] at hm hm'
  subst hm hm'
  have hsave := saveRegistry_registered (fun _ ↦ byteFns)
    (show [⟨[97], by decide⟩, ⟨[98], by decide⟩].length ≤ 256 by decide) (by decide) (by decide)
  exact (h [⟨0, 7⟩, ⟨1, 8⟩] _ ⟨[2, 0, 0, 0, 0, 1, 0, 0, 0, 97, 1, 1, 0, 0, 0, 98, 0, 7, 1, 8], 20⟩
    hsave rfl).mpr (by decide)

/-- The `i`-th of 256 names of two letters. -/
def twoLetters (i : ℕ) : CStr where
  bytes := [UInt8.ofNat (97 + i / 16 % 16), UInt8.ofNat (97 + i % 16)]
  zero_notMem := by
    have hletter (d : ℕ) : 0 ≠ UInt8.ofNat (97 + d % 16) := by
      intro h
      have hnat := congrArg UInt8.toNat h
      rw [UInt8.toNat_ofNat', UInt8.toNat_zero] at hnat
      omega
    rw [List.mem_cons, List.mem_singleton, not_or]
    exact ⟨hletter (i / 16), hletter i⟩

theorem twoLetters_injOn {i j : ℕ} (hi : i < 256) (hj : j < 256) (h : twoLetters i = twoLetters j) :
    i = j := by
  simp only [twoLetters, CStr.mk.injEq, List.cons.injEq, and_true] at h
  have h1 := congrArg UInt8.toNat h.1
  have h2 := congrArg UInt8.toNat h.2
  simp only [UInt8.toNat_ofNat'] at h1 h2
  omega

/-- With 256 types, the objects of the last one are lost, even if the order did not change. -/
theorem object_registry_last_type_lost : ∃ (m : ObjectManager UInt8) (o o' r r' : Oio)
    (idMap : UInt8 → UInt8), registerAll (fun _ ↦ byteFns) ((List.range 256).map twoLetters) = some m ∧
    objectManagerSaveRegistry m odbOioCreateBuffer = .ok o ∧ saveAll m o [⟨255, 7⟩] = .ok o' ∧
    objectManagerLoadRegistry m (odbOioBufferRewind o') = some (r, idMap, none) ∧
    loadAll m idMap r 1 = some (r', [.error
      (errorNew .corruption "object_manager_load" "no mapping for saved_id %u")]) := by
  obtain ⟨names, hnames⟩ : ∃ names, (List.range 256).map twoLetters = names := ⟨_, rfl⟩
  have hnodup : names.Nodup := by
    rw [← hnames]
    exact List.nodup_range.map_on fun i hi j hj ↦
      twoLetters_injOn (List.mem_range.mp hi) (List.mem_range.mp hj)
  have hlast : names[(255 : UInt8).toNat]? = some (twoLetters 255) := by
    rw [← hnames, List.getElem?_map, List.getElem?_range (by decide)]
    rfl
  have hlen : names.length = 256 := by rw [← hnames, List.length_map, List.length_range]
  have hbytes : (odbBytes (registryRecords 0 names)).length = 1792 := by
    rw [← hnames]
    decide +kernel
  have hfits : ∀ name ∈ names, name.bytes.length ≤ 2 ^ 32 - 1 := by
    intro name hname
    rw [← hnames] at hname
    obtain ⟨i, -, rfl⟩ := List.mem_map.mp hname
    exact show 2 ≤ 2 ^ 32 - 1 by decide
  have hreg := saveRegistry_registered (fun _ ↦ byteFns) hlen.le hfits (by omega)
  obtain ⟨o, ho⟩ : ∃ o, objectManagerSaveRegistry (registered (fun _ ↦ byteFns) names)
    odbOioCreateBuffer = .ok o := ⟨_, hreg⟩
  have hsize : o.ptr.length = 1796 := by
    rw [hreg, Except.ok.injEq] at ho
    rw [← ho, List.length_append, Block.length_leBytes, hbytes]
  have htype := odbWrite_eq (o := o) (r := .u8 255) trivial
    (by rw [hsize]; decide)
  have hbyte := odbWrite_eq (o := ⟨o.ptr ++ [255], o.pos + 1⟩) (r := .u8 7) trivial
    (by rw [List.length_append, hsize]; decide)
  have hsave : saveAll (registered (fun _ ↦ byteFns) names) o [⟨255, 7⟩] =
      .ok ⟨o.ptr ++ [255] ++ [7], o.pos + 1 + 1⟩ := by
    simp only [odbWrite, OdbRecord.bytes] at htype hbyte
    rw [saveAll, List.foldlM_cons, objectManagerSave, typeEntry_registered, hlast]
    simp only [Option.map_some, htype, nameEntry, byteFns, List.length_singleton, hbyte]
    rfl
  have hat : (odbOioBufferRewind ⟨o.ptr ++ [255] ++ [7], o.pos + 1 + 1⟩).At [] (o.ptr ++ [255, 7]) := by
    refine ⟨by simp [odbOioBufferRewind], rfl, ?_⟩
    simp only [odbOioBufferRewind, List.length_append, hsize]
    decide
  obtain ⟨-, hload⟩ := loadRegistry_saveRegistry (fun _ ↦ byteFns) hlen.le
    (fun name hname ↦ hname) ho
  obtain ⟨r, idMap, hr, hrat, hmap⟩ := hload hat
  have hidx : idMap 255 = 0xFF := by
    obtain ⟨hlt, hget⟩ := List.getElem?_eq_some_iff.mp hlast
    rw [hmap 255 _ hlast, ← hget, hnodup.idxOf_getElem]
    rfl
  obtain ⟨r', hr'⟩ := objectManagerLoad_last (fun _ ↦ byteFns) names hidx
    (R := [7]) hrat
  rw [hnames]
  refine ⟨_, o, _, r, r', idMap, registerAll_eq _ hnodup hlen.le, ho, hsave, hr, ?_⟩
  rw [loadAll, List.replicate_one, CallMachine.run_cons_of_step hr']
  rfl

end LatteC
