import LatteC.Json.Returns

/-!
# Meanings of texts

What a text without strings stands for, given what its scalars stand for: without a limit on levels, and with
the last of the members that have one name. The tokener accepts a text if it has a meaning, its levels and
names fit, and no object has a name twice.
-/

namespace LatteC

section Meanings

variable {D : Type} {E : JsonEnv D}

/-! ## Conditions on all values of a text -/

mutual

/-- A condition that holds of every value within a text, and of the text itself. -/
def JsonDoc.All (p : JsonDoc → Prop) : JsonDoc → Prop
  | .word w => p (.word w)
  | .number n => p (.number n)
  | .string chars => p (.string chars)
  | .array ws elements => p (.array ws elements) ∧ allElements p elements
  | .object ws members => p (.object ws members) ∧ allMembers p members
  | .padded _ d _ => d.All p

def allElements (p : JsonDoc → Prop) : List JsonDoc → Prop
  | [] => True
  | d :: ds => d.All p ∧ allElements p ds

def allMembers (p : JsonDoc → Prop) : List (JsonName × JsonDoc) → Prop
  | [] => True
  | (_, d) :: ms => d.All p ∧ allMembers p ms

end

section All

variable {p q r : JsonDoc → Prop}

mutual

/-- Conditions on all values are put together from conditions on one. -/
theorem JsonDoc.All.imp_and (h : ∀ d, p d → q d → r d) (d : JsonDoc) (hp : d.All p)
    (hq : d.All q) : d.All r := by
  cases d with
  | word w => exact h _ hp hq
  | number n => exact h _ hp hq
  | string chars => exact h _ hp hq
  | array ws elements => exact ⟨h _ hp.1 hq.1, allElements_imp_and h elements hp.2 hq.2⟩
  | object ws members => exact ⟨h _ hp.1 hq.1, allMembers_imp_and h members hp.2 hq.2⟩
  | padded before d after => exact JsonDoc.All.imp_and h d hp hq

theorem allElements_imp_and (h : ∀ d, p d → q d → r d) (ds : List JsonDoc)
    (hp : allElements p ds) (hq : allElements q ds) : allElements r ds := by
  cases ds with
  | nil => trivial
  | cons d ds => exact ⟨JsonDoc.All.imp_and h d hp.1 hq.1, allElements_imp_and h ds hp.2 hq.2⟩

theorem allMembers_imp_and (h : ∀ d, p d → q d → r d) (ms : List (JsonName × JsonDoc))
    (hp : allMembers p ms) (hq : allMembers q ms) : allMembers r ms := by
  cases ms with
  | nil => trivial
  | cons m ms =>
    obtain ⟨k, d⟩ := m
    exact ⟨JsonDoc.All.imp_and h d hp.1 hq.1, allMembers_imp_and h ms hp.2 hq.2⟩

end

theorem JsonDoc.All.imp (h : ∀ d, p d → q d) {d : JsonDoc} (hp : d.All p) : d.All q :=
  JsonDoc.All.imp_and (fun d hd _ ↦ h d hd) d hp hp

end All

/-- No string. -/
def JsonDoc.NoString : JsonDoc → Prop
  | .string _ => False
  | _ => True

/-- The key that a name stands for. -/
def JsonName.key (k : JsonName) : List UInt8 := cString (stringBytes 0 k.chars)

/-- The names of an object as they are encoded, or the text of a number, fit in a buffer with so much room. -/
def JsonDoc.TokensFit (room : ℕ) : JsonDoc → Prop
  | .object _ members => ∀ m ∈ members, (stringBytes 0 m.1.chars).length ≤ room
  | .number n => n.text.length ≤ room
  | _ => True

theorem JsonDoc.TokensFit.mono {m n : ℕ} (hmn : m ≤ n) {d : JsonDoc} (h : d.TokensFit m) : d.TokensFit n := by
  cases d with
  | object ws members => exact fun m hm ↦ (h m hm).trans hmn
  | number n => exact Nat.le_trans h hmn
  | _ => trivial

/-- No two names of an object stand for one key. -/
def JsonDoc.NamesDiffer : JsonDoc → Prop
  | .object _ members => (members.map fun m ↦ m.1.key).Nodup
  | _ => True

/-- A scalar that stands for something. -/
def JsonDoc.Meant (word : JsonWord → Option (Value D)) (number : JsonNumber → Option (Value D)) :
    JsonDoc → Prop
  | .word w => (word w).isSome
  | .number n => (number n).isSome
  | _ => True

/-! ## Levels -/

mutual

/-- The levels below the one on which a value stands. -/
def JsonDoc.levels : JsonDoc → ℕ
  | .array _ elements => elementLevels elements
  | .object _ members => memberLevels members
  | .padded _ d _ => d.levels
  | _ => 0

def elementLevels : List JsonDoc → ℕ
  | [] => 0
  | d :: ds => max (d.levels + 1) (elementLevels ds)

def memberLevels : List (JsonName × JsonDoc) → ℕ
  | [] => 0
  | (_, d) :: ms => max (d.levels + 1) (memberLevels ms)

end

/-! ## Meanings -/

/-- The last of the members that have one key, for every key. -/
def lastMembers {V : Type} : List (List UInt8 × V) → List (List UInt8 × V)
  | [] => []
  | m :: ms => if (ms.map Prod.fst).contains m.1 then lastMembers ms else m :: lastMembers ms

theorem lastMembers_of_mem {V : Type} {m : List UInt8 × V} {ms : List (List UInt8 × V)}
    (h : m.1 ∈ ms.map Prod.fst) : lastMembers (m :: ms) = lastMembers ms :=
  if_pos (List.contains_iff_mem.mpr h)

theorem lastMembers_of_notMem {V : Type} {m : List UInt8 × V} {ms : List (List UInt8 × V)}
    (h : m.1 ∉ ms.map Prod.fst) : lastMembers (m :: ms) = m :: lastMembers ms :=
  if_neg fun hc ↦ h (List.contains_iff_mem.mp hc)

theorem lastMembers_of_nodup {V : Type} {ms : List (List UInt8 × V)}
    (h : (ms.map Prod.fst).Nodup) : lastMembers ms = ms := by
  induction ms with
  | nil => rfl
  | cons m ms ih =>
    rw [List.map_cons, List.nodup_cons] at h
    rw [lastMembers_of_notMem h.1, ih h.2]

/-- What is found under a key is what has been given last for it. -/
theorem lookup_lastMembers {V : Type} (ms : List (List UInt8 × V)) (key : List UInt8) :
    (lastMembers ms).lookup key = ms.reverse.lookup key := by
  induction ms with
  | nil => rfl
  | cons m ms ih =>
    obtain ⟨k, v⟩ := m
    rw [List.reverse_cons, List.lookup_append, ← ih]
    by_cases hkey : key = k
    · have hmem : (lastMembers ms).lookup key = none ↔ key ∉ ms.map Prod.fst := by
        rw [ih, List.lookup_eq_none_iff]
        simp only [List.mem_reverse, bne_iff_ne, List.mem_map, not_exists, not_and]
        exact ⟨fun h m hm heq ↦ h m hm heq.symm, fun h m hm heq ↦ h m hm heq.symm⟩
      rw [hkey] at hmem ⊢
      rw [List.lookup_cons_self]
      by_cases hk : k ∈ ms.map Prod.fst
      · rw [lastMembers_of_mem hk]
        obtain ⟨w, hw⟩ := Option.ne_none_iff_exists'.mp fun hnone ↦ hmem.mp hnone hk
        rw [hw]
        rfl
      · rw [lastMembers_of_notMem hk, hmem.mpr hk, List.lookup_cons_self]
        rfl
    · have hne : ∀ ms : List (List UInt8 × V), ((k, v) :: ms).lookup key = ms.lookup key := by
        intro ms
        rw [List.lookup_cons, beq_false_of_ne hkey]
      rw [hne [], List.lookup_nil, Option.or_none]
      by_cases hk : k ∈ ms.map Prod.fst
      · rw [lastMembers_of_mem hk]
      · rw [lastMembers_of_notMem hk, hne]

section Scalars

variable (word : JsonWord → Option (Value D)) (number : JsonNumber → Option (Value D))

mutual

/-- What a text stands for. -/
def JsonDoc.meaning : JsonDoc → Option (Value D)
  | .word w => word w
  | .number n => number n
  | .string _ => none
  | .array _ elements => (elementMeanings elements).map .array
  | .object _ members => (memberMeanings members).map fun ms ↦ .map (lastMembers ms)
  | .padded _ d _ => d.meaning

def elementMeanings : List JsonDoc → Option (List (Value D))
  | [] => some []
  | d :: ds => d.meaning.bind fun v ↦ (elementMeanings ds).map (v :: ·)

def memberMeanings : List (JsonName × JsonDoc) → Option (List (List UInt8 × Value D))
  | [] => some []
  | (k, d) :: ms => d.meaning.bind fun v ↦ (memberMeanings ms).map ((k.key, v) :: ·)

end

end Scalars

/-! ## The values of the tokener -/

theorem nameKey_eq_some_iff {k : JsonName} {key : List UInt8} :
    nameKey E k.chars = some key ↔ (stringBytes 0 k.chars).length ≤ E.limit ∧ k.key = key := by
  rw [nameKey, JsonName.key]
  split_ifs with hroom
  · rw [Option.some.injEq, and_iff_right hroom]
  · simp [hroom]

theorem bind_guard_eq_some_iff {m n : ℕ} {o : Option (Value D)}
    {f : Value D → Option (Value D)} {v : Value D} :
    (if m ≤ n then none else o).bind f = some v ↔ n < m ∧ ∃ w, o = some w ∧ f w = some v := by
  rw [Option.bind_eq_some_iff]
  split_ifs with hle
  · simp [Nat.not_lt.mpr hle]
  · simp [Nat.not_le.mp hle]

theorem membersValue_cons_eq_some_iff {k : JsonName} {d : JsonDoc} {ms : List (JsonName × JsonDoc)}
    {depth : ℕ} {acc : List (List UInt8 × Value D)} {v : Value D} :
    membersValue E depth ((k, d) :: ms) acc = some v ↔ (stringBytes 0 k.chars).length ≤ E.limit ∧
      depth + 1 < E.maxDepth ∧ ∃ w, docValue E (depth + 1) d = some w ∧
        k.key ∉ acc.map Prod.fst ∧ membersValue E depth ms (acc ++ [(k.key, w)]) = some v := by
  rw [membersValue, Option.bind_eq_some_iff]
  simp only [nameKey_eq_some_iff, bind_guard_eq_some_iff, ite_eq_iff, reduceCtorEq, and_false,
    false_or]
  constructor
  · rintro ⟨key, ⟨hroom, rfl⟩, hlt, w, hw, hnew, hrest⟩
    exact ⟨hroom, hlt, w, hw, hnew, hrest⟩
  · rintro ⟨hroom, hlt, w, hw, hnew, hrest⟩
    exact ⟨k.key, ⟨hroom, rfl⟩, hlt, w, hw, hnew, hrest⟩

theorem map_fst_of_memberMeanings {word : JsonWord → Option (Value D)}
    {number : JsonNumber → Option (Value D)} {ms : List (JsonName × JsonDoc)}
    {kvs : List (List UInt8 × Value D)} (h : memberMeanings word number ms = some kvs) :
    kvs.map Prod.fst = ms.map fun m ↦ m.1.key := by
  induction ms generalizing kvs with
  | nil =>
    obtain rfl := Option.some.inj h
    rfl
  | cons m ms ih =>
    obtain ⟨k, d⟩ := m
    rw [memberMeanings, Option.bind_eq_some_iff] at h
    obtain ⟨w, -, h⟩ := h
    obtain ⟨kvs', hkvs', rfl⟩ := Option.map_eq_some_iff.mp h
    rw [List.map_cons, List.map_cons, ih hkvs']

mutual

/-- **The value of a text** is its meaning, where its levels, names and numbers fit and no name comes twice. -/
theorem docValue_eq_some_iff (d : JsonDoc) (hd : d.All JsonDoc.NoString) {depth : ℕ}
    (hdepth : depth < E.maxDepth) (v : Value D) :
    docValue E depth d = some v ↔ depth + d.levels < E.maxDepth ∧ d.All (JsonDoc.TokensFit E.limit) ∧
      d.All JsonDoc.NamesDiffer ∧ d.meaning (wordValue E) (numberValue E) = some v := by
  cases d with
  | word w => exact ⟨fun h ↦ ⟨hdepth, trivial, trivial, h⟩, fun h ↦ h.2.2.2⟩
  | number n =>
    rw [docValue, numberRead, ite_eq_iff]
    simp only [reduceCtorEq, and_false, or_false]
    exact ⟨fun h ↦ ⟨hdepth, h.1, trivial, h.2⟩, fun h ↦ ⟨h.2.1, h.2.2.2⟩⟩
  | string chars => exact hd.elim
  | padded before d after => exact docValue_eq_some_iff d hd hdepth v
  | array ws elements =>
    rw [docValue, elementsValue_eq_some_iff elements hd.2 hdepth]
    simp only [JsonDoc.levels, JsonDoc.All, JsonDoc.TokensFit, JsonDoc.NamesDiffer, true_and,
      JsonDoc.meaning, Option.map_eq_some_iff, List.nil_append, eq_comm (a := v)]
  | object ws members =>
    rw [docValue, @membersValue_eq_some_iff members hd.2 depth hdepth [] List.nodup_nil v]
    rw [JsonDoc.levels, JsonDoc.All, JsonDoc.All, JsonDoc.TokensFit, JsonDoc.NamesDiffer,
      JsonDoc.meaning, Option.map_eq_some_iff]
    simp only [List.map_nil, List.nil_append]
    constructor
    · rintro ⟨hlevels, hfit, hdiffer, kvs, hkvs, rfl⟩
      have hnodup : (kvs.map Prod.fst).Nodup := by
        rw [map_fst_of_memberMeanings hkvs]
        exact hdiffer.1
      exact ⟨hlevels, hfit, hdiffer, kvs, hkvs, by rw [lastMembers_of_nodup hnodup]⟩
    · rintro ⟨hlevels, hfit, hdiffer, kvs, hkvs, rfl⟩
      have hnodup : (kvs.map Prod.fst).Nodup := by
        rw [map_fst_of_memberMeanings hkvs]
        exact hdiffer.1
      exact ⟨hlevels, hfit, hdiffer, kvs, hkvs, by rw [lastMembers_of_nodup hnodup]⟩

theorem elementsValue_eq_some_iff (ds : List JsonDoc) (hds : allElements JsonDoc.NoString ds)
    {depth : ℕ} (hdepth : depth < E.maxDepth) {vs : List (Value D)} {v : Value D} :
    elementsValue E depth ds vs = some v ↔ depth + elementLevels ds < E.maxDepth ∧
      allElements (JsonDoc.TokensFit E.limit) ds ∧ allElements JsonDoc.NamesDiffer ds ∧
        ∃ ws, elementMeanings (wordValue E) (numberValue E) ds = some ws ∧ v = .array (vs ++ ws) := by
  cases ds with
  | nil =>
    rw [elementsValue, Option.some.injEq, elementMeanings]
    refine ⟨fun h ↦ ⟨hdepth, trivial, trivial, [], rfl, by rw [List.append_nil, h]⟩, ?_⟩
    rintro ⟨-, -, -, ws, hws, rfl⟩
    rw [← Option.some.inj hws, List.append_nil]
  | cons d ds =>
    rw [elementsValue, bind_guard_eq_some_iff, elementLevels]
    constructor
    · rintro ⟨hlt, w, hw, hrest⟩
      obtain ⟨hlevels, hfit, hdiffer, hmeaning⟩ := (docValue_eq_some_iff d hds.1 hlt w).mp hw
      obtain ⟨hlevels', hfit', hdiffer', ws, hws, rfl⟩ :=
        (elementsValue_eq_some_iff ds hds.2 hdepth).mp hrest
      refine ⟨by omega, ⟨hfit, hfit'⟩, ⟨hdiffer, hdiffer'⟩, w :: ws, ?_, ?_⟩
      · rw [elementMeanings, hmeaning, Option.bind_some, hws, Option.map_some]
      · rw [List.append_assoc, List.singleton_append]
    · rintro ⟨hlevels, hfit, hdiffer, ws, hws, rfl⟩
      rw [elementMeanings, Option.bind_eq_some_iff] at hws
      obtain ⟨w, hw, hws⟩ := hws
      obtain ⟨ws', hws', rfl⟩ := Option.map_eq_some_iff.mp hws
      have hlt : depth + 1 < E.maxDepth := by omega
      refine ⟨hlt, w, ?_, ?_⟩
      · exact (docValue_eq_some_iff d hds.1 hlt w).mpr ⟨by omega, hfit.1, hdiffer.1, hw⟩
      · refine (elementsValue_eq_some_iff ds hds.2 hdepth).mpr
          ⟨by omega, hfit.2, hdiffer.2, ws', hws', ?_⟩
        rw [List.append_assoc, List.singleton_append]

theorem membersValue_eq_some_iff (ms : List (JsonName × JsonDoc))
    (hms : allMembers JsonDoc.NoString ms) {depth : ℕ} (hdepth : depth < E.maxDepth)
    {acc : List (List UInt8 × Value D)} (hacc : (acc.map Prod.fst).Nodup) {v : Value D} :
    membersValue E depth ms acc = some v ↔ depth + memberLevels ms < E.maxDepth ∧
      ((∀ m ∈ ms, (stringBytes 0 m.1.chars).length ≤ E.limit) ∧
        allMembers (JsonDoc.TokensFit E.limit) ms) ∧
      ((acc.map Prod.fst ++ ms.map fun m ↦ m.1.key).Nodup ∧
        allMembers JsonDoc.NamesDiffer ms) ∧
        ∃ kvs, memberMeanings (wordValue E) (numberValue E) ms = some kvs ∧
          v = .map (acc ++ kvs) := by
  cases ms with
  | nil =>
    rw [membersValue, Option.some.injEq, memberMeanings, List.map_nil, List.append_nil]
    refine ⟨fun h ↦ ⟨hdepth, ⟨fun m hm ↦ absurd hm List.not_mem_nil, trivial⟩, ⟨hacc, trivial⟩, [],
      rfl, by rw [List.append_nil, h]⟩, ?_⟩
    rintro ⟨-, -, -, kvs, hkvs, rfl⟩
    rw [← Option.some.inj hkvs, List.append_nil]
  | cons m ms =>
    obtain ⟨k, d⟩ := m
    have hkeys : ∀ w : Value D, (acc ++ [(k.key, w)]).map Prod.fst = acc.map Prod.fst ++ [k.key] := by
      intro w
      rw [List.map_append]
      rfl
    have happend : acc.map Prod.fst ++ ((k, d) :: ms).map (fun m ↦ m.1.key) =
        (acc.map Prod.fst ++ [k.key]) ++ ms.map fun m ↦ m.1.key := by
      rw [List.append_assoc]
      rfl
    rw [membersValue_cons_eq_some_iff, memberLevels, happend]
    constructor
    · rintro ⟨hroom, hlt, w, hw, hnew, hrest⟩
      have hacc' : ((acc ++ [(k.key, w)]).map Prod.fst).Nodup := by
        rw [hkeys]
        exact List.nodup_append_comm.mp (List.nodup_cons.mpr ⟨hnew, hacc⟩)
      obtain ⟨hlevels, hfit, hdiffer, hmeaning⟩ := (docValue_eq_some_iff d hms.1 hlt w).mp hw
      obtain ⟨hlevels', hfit', hdiffer', kvs, hkvs, rfl⟩ :=
        (membersValue_eq_some_iff ms hms.2 hdepth hacc').mp hrest
      rw [hkeys] at hdiffer'
      refine ⟨by omega, ⟨?_, hfit, hfit'.2⟩, ⟨hdiffer'.1, hdiffer, hdiffer'.2⟩, (k.key, w) :: kvs, ?_,
        ?_⟩
      · intro m hm
        obtain rfl | hm := List.mem_cons.mp hm
        · exact hroom
        · exact hfit'.1 m hm
      · rw [memberMeanings, hmeaning, Option.bind_some, hkvs, Option.map_some]
      · rw [List.append_assoc, List.singleton_append]
    · rintro ⟨hlevels, hfit, hdiffer, kvs, hkvs, rfl⟩
      rw [memberMeanings, Option.bind_eq_some_iff] at hkvs
      obtain ⟨w, hw, hkvs⟩ := hkvs
      obtain ⟨kvs', hkvs', rfl⟩ := Option.map_eq_some_iff.mp hkvs
      have hlt : depth + 1 < E.maxDepth := by omega
      have hacc' := (List.nodup_append.mp hdiffer.1).1
      refine ⟨hfit.1 _ List.mem_cons_self, hlt, w, ?_, ?_, ?_⟩
      · exact (docValue_eq_some_iff d hms.1 hlt w).mpr ⟨by omega, hfit.2.1, hdiffer.2.1, hw⟩
      · exact (List.nodup_cons.mp (List.nodup_append_comm.mp hacc')).1
      · have hacc'' : ((acc ++ [(k.key, w)]).map Prod.fst).Nodup := by
          rw [hkeys]
          exact hacc'
        refine (membersValue_eq_some_iff ms hms.2 hdepth hacc'').mpr ⟨by omega,
          ⟨fun m hm ↦ hfit.1 m (List.mem_cons_of_mem _ hm), hfit.2.2⟩, ⟨?_, hdiffer.2.2⟩, kvs',
          hkvs', ?_⟩
        · rw [hkeys]
          exact hdiffer.1
        · rw [List.append_assoc, List.singleton_append]

end

/-! ## Scalars decide -/

/-- A condition on words. -/
def JsonDoc.WordIs (p : JsonWord → Prop) : JsonDoc → Prop
  | .word w => p w
  | _ => True

section Scalars

variable {word word' : JsonWord → Option (Value D)} {number : JsonNumber → Option (Value D)}

mutual

/-- A text stands for something if its scalars do. -/
theorem JsonDoc.isSome_meaning (d : JsonDoc) (hd : d.All JsonDoc.NoString) :
    (d.meaning word number).isSome ↔ d.All (JsonDoc.Meant word number) := by
  cases d with
  | word w => exact Iff.rfl
  | number n => exact Iff.rfl
  | string chars => exact hd.elim
  | array ws elements =>
    rw [JsonDoc.meaning, Option.isSome_map, isSome_elementMeanings elements hd.2]
    exact ⟨fun h ↦ ⟨trivial, h⟩, fun h ↦ h.2⟩
  | object ws members =>
    rw [JsonDoc.meaning, Option.isSome_map, isSome_memberMeanings members hd.2]
    exact ⟨fun h ↦ ⟨trivial, h⟩, fun h ↦ h.2⟩
  | padded before d after => exact JsonDoc.isSome_meaning d hd

theorem isSome_elementMeanings (ds : List JsonDoc) (hds : allElements JsonDoc.NoString ds) :
    (elementMeanings word number ds).isSome ↔ allElements (JsonDoc.Meant word number) ds := by
  cases ds with
  | nil => exact ⟨fun _ ↦ trivial, fun _ ↦ rfl⟩
  | cons d ds =>
    rw [elementMeanings, allElements, ← JsonDoc.isSome_meaning d hds.1,
      ← isSome_elementMeanings ds hds.2]
    cases d.meaning word number <;> simp

theorem isSome_memberMeanings (ms : List (JsonName × JsonDoc))
    (hms : allMembers JsonDoc.NoString ms) :
    (memberMeanings word number ms).isSome ↔ allMembers (JsonDoc.Meant word number) ms := by
  cases ms with
  | nil => exact ⟨fun _ ↦ trivial, fun _ ↦ rfl⟩
  | cons m ms =>
    obtain ⟨k, d⟩ := m
    rw [memberMeanings, allMembers, ← JsonDoc.isSome_meaning d hms.1,
      ← isSome_memberMeanings ms hms.2]
    cases d.meaning word number <;> simp

end

mutual

/-- Only the words of a text matter, not what others stand for. -/
theorem JsonDoc.meaning_congr (d : JsonDoc) (hd : d.All (JsonDoc.WordIs fun w ↦ word w = word' w)) :
    d.meaning word number = d.meaning word' number := by
  cases d with
  | word w => exact hd
  | number n => rfl
  | string chars => rfl
  | array ws elements =>
    rw [JsonDoc.meaning, JsonDoc.meaning, elementMeanings_congr elements hd.2]
  | object ws members =>
    rw [JsonDoc.meaning, JsonDoc.meaning, memberMeanings_congr members hd.2]
  | padded before d after => exact JsonDoc.meaning_congr d hd

theorem elementMeanings_congr (ds : List JsonDoc)
    (hds : allElements (JsonDoc.WordIs fun w ↦ word w = word' w) ds) :
    elementMeanings word number ds = elementMeanings word' number ds := by
  cases ds with
  | nil => rfl
  | cons d ds =>
    rw [elementMeanings, elementMeanings, JsonDoc.meaning_congr d hds.1,
      elementMeanings_congr ds hds.2]

theorem memberMeanings_congr (ms : List (JsonName × JsonDoc))
    (hms : allMembers (JsonDoc.WordIs fun w ↦ word w = word' w) ms) :
    memberMeanings word number ms = memberMeanings word' number ms := by
  cases ms with
  | nil => rfl
  | cons m ms =>
    obtain ⟨k, d⟩ := m
    rw [memberMeanings, memberMeanings, JsonDoc.meaning_congr d hms.1,
      memberMeanings_congr ms hms.2]

end

end Scalars

/-! ## Accepted texts -/

/-- `sds_to_json` accepts a text. -/
def JsonAccepts (E : JsonEnv D) (str : List UInt8) : Prop := ∃ v, SdsToJson E str (.accept v)

theorem accept_ne_reject {v : Value D} : JsonReply.accept v ≠ .reject := fun h ↦
  absurd (congrArg JsonReply.rc h) Nat.one_ne_zero

theorem length_lt_of_accept (hE : E.Zeroed) {d : JsonDoc} (hd : d.IsContainer) {v : Value D}
    (h : SdsToJson E d.render (.accept v)) : d.render.length < 2 ^ 31 := by
  by_contra hlen
  have heq := h.unique (sdsToJson_cut hE hd List.prefix_rfl (.inr (Nat.not_lt.mp hlen)))
  split_ifs at heq
  · exact absurd (congrArg JsonReply.rc heq) Nat.one_ne_zero
  · exact accept_ne_reject heq

/-- **What is accepted** of the texts of an array or an object without strings, and with which value, if the
buffer is sure to grow for its names and numbers. -/
theorem sdsToJson_accept_iff (hE : E.Zeroed) {d : JsonDoc} (hd : d.IsContainer)
    (hstring : d.All JsonDoc.NoString) (hfit : d.All (JsonDoc.TokensFit (2 ^ 31 - 10))) (v : Value D) :
    SdsToJson E d.render (.accept v) ↔ d.render.length < 2 ^ 31 ∧ d.levels < 32 ∧
      d.All JsonDoc.NamesDiffer ∧ d.meaning (wordValue E) (numberValue E) = some v := by
  by_cases hlen : d.render.length < 2 ^ 31
  · obtain ⟨room, hroom, -, hreply⟩ := sdsToJson_container hE hd hlen
    have hdepth : 0 < ((jsonTokenerNew E).within room).maxDepth := Nat.succ_pos 31
    have hvalue : docValue ((jsonTokenerNew E).within room) 0 d = some v ↔ 0 + d.levels < 32 ∧
        d.All (JsonDoc.TokensFit room) ∧ d.All JsonDoc.NamesDiffer ∧
          d.meaning (wordValue E) (numberValue E) = some v :=
      docValue_eq_some_iff d hstring hdepth v
    have hfit' : d.All (JsonDoc.TokensFit room) := hfit.imp fun _ h ↦ h.mono hroom
    rw [Nat.zero_add, and_iff_right hfit'] at hvalue
    rw [and_iff_right hlen]
    refine Iff.trans ?_ hvalue
    constructor
    · intro h
      have heq := hreply.unique h
      cases hdoc : docValue ((jsonTokenerNew E).within room) 0 d with
      | none =>
        rw [hdoc] at heq
        exact absurd heq.symm accept_ne_reject
      | some w =>
        rw [hdoc] at heq
        exact congrArg some (Option.some.inj (congrArg JsonReply.result heq))
    · intro h
      rw [h] at hreply
      exact hreply
  · exact ⟨fun h ↦ absurd (length_lt_of_accept hE hd h) hlen, fun h ↦ absurd h.1 hlen⟩

end Meanings

end LatteC
