import LatteC.Json.Meaning

/-!
# The encoder

`json_to_sds` of `src/json/latte_json.c`. What it writes for a value without strings, floating point numbers
and NULL is the text of a value, as the tokener takes it.
-/

namespace LatteC

open Decimal

section Encode

variable {D : Type}

/-! ## `json_to_sds` -/

/-- `sds_to_string`. -/
def sdsToString (v : List UInt8) : List UInt8 := 34 :: (cString v ++ [34])

section

variable (ld2sds : D → Option (List UInt8))

mutual

/-- `json_to_sds`. The members of a map are in the order in which the iterator of the dict returns them. NULL
as a value is a fault, and so is a conversion that returns NULL within an array or a map. -/
def jsonToSds : Value D → Option (List UInt8)
  | .null => none
  | .sds s => some (sdsToString s)
  | .int l => ll2sds l.toInt
  | .uint l => ull2sds l.toNat
  | .double d => ld2sds d
  | .boolean b => some (if b then jsonTrueStr else jsonFalseStr)
  | .array elements =>
    (jsonElementsToSds true elements ['['.toUInt8]).map (· ++ [']'.toUInt8])
  | .map members => (jsonMembersToSds true members ['{'.toUInt8]).map (· ++ ['}'.toUInt8])
  | .undefined => some jsonNullStr
  | .constantChar _ => some jsonNullStr

/-- The loop over the elements of an array. -/
def jsonElementsToSds (frist : Bool) : List (Value D) → List UInt8 → Option (List UInt8)
  | [], result => some result
  | v :: vs, result =>
    (jsonToSds v).bind fun r ↦
      jsonElementsToSds false vs (result ++ ((if frist then [] else [','.toUInt8]) ++ cString r))

/-- The loop over the members of a map. -/
def jsonMembersToSds (frist : Bool) :
    List (List UInt8 × Value D) → List UInt8 → Option (List UInt8)
  | [], result => some result
  | (k, v) :: ms, result =>
    (jsonToSds v).bind fun vStr ↦
      jsonMembersToSds false ms (result ++ ((if frist then [] else [','.toUInt8]) ++
        (cString (sdsToString k) ++ ':'.toUInt8 :: cString vStr)))

end

end

/-! ## Values without strings -/

mutual

/-- A value of integers, booleans, arrays and maps, with keys that need no escape. -/
def Value.Plain : Value D → Prop
  | .int _ => True
  | .uint _ => True
  | .boolean _ => True
  | .array elements => plainElements elements
  | .map members => (members.map Prod.fst).Nodup ∧ plainMembers members
  | _ => False

def plainElements : List (Value D) → Prop
  | [] => True
  | v :: vs => v.Plain ∧ plainElements vs

def plainMembers : List (List UInt8 × Value D) → Prop
  | [] => True
  | (k, v) :: ms => (∀ c ∈ k, c ≠ 0 ∧ c ≠ 34 ∧ c ≠ 92) ∧ v.Plain ∧ plainMembers ms

end

mutual

/-- The levels below the one on which a value stands. -/
def Value.levels : Value D → ℕ
  | .array elements => elementValueLevels elements
  | .map members => memberValueLevels members
  | _ => 0

def elementValueLevels : List (Value D) → ℕ
  | [] => 0
  | v :: vs => max (v.levels + 1) (elementValueLevels vs)

def memberValueLevels : List (List UInt8 × Value D) → ℕ
  | [] => 0
  | (_, v) :: ms => max (v.levels + 1) (memberValueLevels ms)

end

mutual

/-- The keys of a value are no longer than this. -/
def Value.KeysWithin (room : ℕ) : Value D → Prop
  | .array elements => keysWithinElements room elements
  | .map members => keysWithinMembers room members
  | _ => True

def keysWithinElements (room : ℕ) : List (Value D) → Prop
  | [] => True
  | v :: vs => v.KeysWithin room ∧ keysWithinElements room vs

def keysWithinMembers (room : ℕ) : List (List UInt8 × Value D) → Prop
  | [] => True
  | (k, v) :: ms => k.length ≤ room ∧ v.KeysWithin room ∧ keysWithinMembers room ms

end

mutual

/-- A value with its small unsigned integers as signed ones. -/
def Value.comesBack : Value D → Value D
  | .uint l => if l.toNat < 2 ^ 63 then .int (.ofInt l.toNat) else .uint l
  | .array elements => .array (elementsComeBack elements)
  | .map members => .map (membersComeBack members)
  | v => v

def elementsComeBack : List (Value D) → List (Value D)
  | [] => []
  | v :: vs => v.comesBack :: elementsComeBack vs

def membersComeBack : List (List UInt8 × Value D) → List (List UInt8 × Value D)
  | [] => []
  | (k, v) :: ms => (k, v.comesBack) :: membersComeBack ms

end

/-- An array or a map. -/
def Value.IsContainer : Value D → Prop
  | .array _ => True
  | .map _ => True
  | _ => False

/-! ## The text of a value -/

variable {E : JsonEnv D} {ld2sds : D → Option (List UInt8)}

/-- `strtoull` on the numerals that it has to convert. -/
def JsonEnv.ConvertsNumerals (E : JsonEnv D) : Prop :=
  ∀ n : ℕ, n < 2 ^ 64 → E.strtoull (natNumeral n) = some n

theorem isDigitChar_of_isDigit {c : UInt8} (h : IsDigit c) : isDigitChar c = true :=
  decide_eq_true h

/-- A numeral as a number of the format. -/
theorem exists_number (l : ℤ) : ∃ n : JsonNumber, n.text = numeral l ∧ n.isDouble = false := by
  have hdigits : natNumeral l.natAbs ≠ [] ∧ ∀ c ∈ natNumeral l.natAbs, isDigitChar c = true := by
    obtain ⟨c, cs, heq, -⟩ := natNumeral_ne_minus l.natAbs
    exact ⟨by rw [heq]; exact List.cons_ne_nil c cs,
      fun c hc ↦ isDigitChar_of_isDigit (isDigit_of_mem_natNumeral hc)⟩
  refine ⟨⟨decide (l < 0), ⟨natNumeral l.natAbs, hdigits⟩, none, none⟩, ?_, rfl⟩
  rw [JsonNumber.text, numeral, JsonNumber.tail, minusText]
  by_cases hneg : l < 0
  · simp only [hneg, decide_true, if_true, Option.elim_none, List.append_nil, List.singleton_append]
    rfl
  · simp [hneg]

theorem head_numeral_eq_minus_iff (l : ℤ) : (numeral l).head? = some '-'.toUInt8 ↔ l < 0 := by
  rw [numeral]
  split_ifs with hneg
  · exact iff_of_true rfl hneg
  · obtain ⟨c, cs, heq, hc⟩ := natNumeral_ne_minus l.natAbs
    rw [heq]
    exact iff_of_false (fun h ↦ hc (Option.some.inj h)) hneg

theorem zero_notMem_numeral (l : ℤ) : 0 ∉ numeral l := by
  have hnat : 0 ∉ natNumeral l.natAbs := fun h ↦
    absurd (isDigit_of_mem_natNumeral h) (by decide)
  rw [numeral]
  split_ifs
  · exact List.not_mem_cons_of_ne_of_not_mem (by decide) hnat
  · exact hnat

/-- The tokener's number for the numeral of a 64-bit integer. -/
theorem jsonNumberValue_numeral (hstrict : E.strict = false) {l : ℤ} (h : IsInt64 l) :
    jsonNumberValue E false (numeral l) = some (.int (.ofInt l)) := by
  have hll : string2ll (numeral l) = some l := (string2ll_eq_some_iff _ _).mpr ⟨h, rfl⟩
  rw [jsonNumberValue, if_neg Bool.false_ne_true]
  by_cases hneg : l < 0
  · rw [if_pos ((head_numeral_eq_minus_iff l).mpr hneg), hll]
    simp [hstrict]
  · rw [if_neg fun hhead ↦ hneg ((head_numeral_eq_minus_iff l).mp hhead), string2ull,
      cString_eq_self (zero_notMem_numeral l), hll]
    simp only [hneg, if_false, hstrict, Bool.false_eq_true, and_false,
      Int.toNat_of_nonneg (Int.not_lt.mp hneg)]
    exact if_pos (by have hmax := h.2; omega)

/-- The tokener's number for the numeral of an integer from 2⁶³ on. -/
theorem jsonNumberValue_natNumeral (hstrict : E.strict = false) (hull : E.ConvertsNumerals) {n : ℕ}
    (hn : 2 ^ 63 ≤ n) (hn' : n < 2 ^ 64) :
    jsonNumberValue E false (numeral n) = some (.uint (.ofNat n)) := by
  have hll : string2ll (numeral n) = none := by
    rw [Option.eq_none_iff_forall_ne_some]
    intro l hl
    obtain ⟨hl, heq⟩ := (string2ll_eq_some_iff _ _).mp hl
    have hvalue := congrArg value heq
    rw [value_numeral, value_numeral] at hvalue
    have hmax := hl.2
    omega
  have hneg : ¬(n : ℤ) < 0 := by omega
  have hnat : numeral n = natNumeral n := by
    rw [numeral, if_neg hneg, Int.natAbs_natCast]
  rw [jsonNumberValue, if_neg Bool.false_ne_true,
    if_neg fun hhead ↦ hneg ((head_numeral_eq_minus_iff n).mp hhead), string2ull,
    cString_eq_self (zero_notMem_numeral n), hll, hnat, hull n hn']
  simp only [hstrict, Bool.false_eq_true, and_false, if_false]
  exact if_neg (Nat.not_lt.mpr hn)

/-- The name that a key is written as. -/
theorem exists_chars {k : List UInt8} (hk : ∀ c ∈ k, c ≠ 0 ∧ c ≠ 34 ∧ c ≠ 92) :
    ∃ chars, stringTail chars = k ++ [34] ∧ stringBytes 0 chars = k := by
  induction k with
  | nil => exact ⟨[], rfl, rfl⟩
  | cons c k ih =>
    obtain ⟨chars, htail, hbytes⟩ := ih fun d hd ↦ hk d (List.mem_cons_of_mem c hd)
    refine ⟨.plain ⟨c, hk c List.mem_cons_self⟩ :: chars, ?_, ?_⟩
    · rw [stringTail_cons, htail]
      rfl
    · rw [stringBytes, hbytes]
      rfl

/-- What `json_to_sds` writes for a value is this text, and the text stands for the value. -/
structure Encodes (E : JsonEnv D) (ld2sds : D → Option (List UInt8)) (v : Value D) (d : JsonDoc) :
    Prop where
  text : jsonToSds ld2sds v = some d.render
  container : v.IsContainer → d.IsContainer
  noString : d.All JsonDoc.NoString
  levels : d.levels = v.levels
  differ : d.All JsonDoc.NamesDiffer
  fit : v.KeysWithin (2 ^ 31 - 10) → d.All (JsonDoc.TokensFit (2 ^ 31 - 10))
  meaning : E.strict = false → E.ConvertsNumerals →
    d.meaning (wordValue E) (numberValue E) = some v.comesBack

/-- The same for the elements of an array. -/
structure EncodesElements (E : JsonEnv D) (ld2sds : D → Option (List UInt8)) (vs : List (Value D))
    (ds : List JsonDoc) : Prop where
  first : ∀ result, (jsonElementsToSds ld2sds true vs result).map (· ++ [']'.toUInt8]) =
    some (result ++ renderElements ds)
  more : ∀ result, (jsonElementsToSds ld2sds false vs result).map (· ++ [']'.toUInt8]) =
    some (result ++ renderMoreElements ds)
  noString : allElements JsonDoc.NoString ds
  levels : elementLevels ds = elementValueLevels vs
  differ : allElements JsonDoc.NamesDiffer ds
  fit : keysWithinElements (2 ^ 31 - 10) vs → allElements (JsonDoc.TokensFit (2 ^ 31 - 10)) ds
  meaning : E.strict = false → E.ConvertsNumerals →
    elementMeanings (wordValue E) (numberValue E) ds = some (elementsComeBack vs)

/-- The same for the members of a map. -/
structure EncodesMembers (E : JsonEnv D) (ld2sds : D → Option (List UInt8))
    (vs : List (List UInt8 × Value D)) (ms : List (JsonName × JsonDoc)) : Prop where
  first : ∀ result, (jsonMembersToSds ld2sds true vs result).map (· ++ ['}'.toUInt8]) =
    some (result ++ renderMembers ms)
  more : ∀ result, (jsonMembersToSds ld2sds false vs result).map (· ++ ['}'.toUInt8]) =
    some (result ++ renderMoreMembers ms)
  keys : ms.map (fun m ↦ m.1.key) = vs.map Prod.fst
  noString : allMembers JsonDoc.NoString ms
  levels : memberLevels ms = memberValueLevels vs
  differ : allMembers JsonDoc.NamesDiffer ms
  fit : keysWithinMembers (2 ^ 31 - 10) vs →
    (∀ m ∈ ms, (stringBytes 0 m.1.chars).length ≤ 2 ^ 31 - 10) ∧
      allMembers (JsonDoc.TokensFit (2 ^ 31 - 10)) ms
  meaning : E.strict = false → E.ConvertsNumerals →
    memberMeanings (wordValue E) (numberValue E) ms = some (membersComeBack vs)

theorem encodes_number {v : Value D} {l : ℤ} (htext : jsonToSds ld2sds v = some (numeral l))
    (hcontainer : ¬v.IsContainer) (hlevels : v.levels = 0) (hlen : (numeral l).length ≤ 31)
    (hvalue : E.strict = false → E.ConvertsNumerals →
      jsonNumberValue E false (numeral l) = some v.comesBack) : ∃ d, Encodes E ld2sds v d := by
  obtain ⟨n, hn, hdouble⟩ := exists_number l
  refine ⟨.number n, ?_, fun h ↦ absurd h hcontainer, trivial, hlevels.symm, trivial,
    fun _ ↦ ?_, fun hstrict hull ↦ ?_⟩
  · rw [htext, JsonDoc.render, hn]
  · change n.text.length ≤ 2 ^ 31 - 10
    rw [hn]
    omega
  · rw [JsonDoc.meaning, numberValue, hn, hdouble]
    exact hvalue hstrict hull

theorem encodes_int (l : Int64) : ∃ d, Encodes E ld2sds (.int l) d := by
  have hl : IsInt64 l.toInt := ⟨l.le_toInt, l.toInt_lt⟩
  have hlen := length_numeral_le hl
  refine encodes_number (ll2sds_eq hl) (fun h ↦ h) rfl (by omega) fun hstrict _ ↦ ?_
  rw [jsonNumberValue_numeral hstrict hl, Int64.ofInt_toInt]
  rfl

theorem jsonToSds_uint (l : UInt64) : jsonToSds ld2sds (.uint l) = some (numeral l.toNat) := by
  have hneg : ¬(l.toNat : ℤ) < 0 := by omega
  rw [jsonToSds, ull2sds_eq l.toNat_lt, numeral, if_neg hneg, Int.natAbs_natCast]

theorem encodes_uint (l : UInt64) : ∃ d, Encodes E ld2sds (.uint l) d := by
  have hlt : l.toNat < 2 ^ 64 := l.toNat_lt
  have hnat : numeral l.toNat = natNumeral l.toNat := by
    rw [numeral, if_neg (by omega), Int.natAbs_natCast]
  have hlen : (natNumeral l.toNat).length ≤ 20 := length_natNumeral_le (by decide) (by omega)
  refine encodes_number (jsonToSds_uint l) (fun h ↦ h) rfl (by rw [hnat]; omega) fun hstrict hull ↦ ?_
  rw [Value.comesBack]
  split_ifs with hsmall
  · exact jsonNumberValue_numeral hstrict ⟨by omega, by omega⟩
  · rw [jsonNumberValue_natNumeral hstrict hull (Nat.not_lt.mp hsmall) hlt, UInt64.ofNat_toNat]

theorem encodes_boolean (b : Bool) : ∃ d, Encodes E ld2sds (.boolean b) d := by
  cases b with
  | true =>
    exact ⟨.word ⟨false, jsonTrueStr, by decide, isLetter_of_all rfl⟩, rfl, fun h ↦ h, trivial, rfl, trivial,
      fun _ ↦ trivial, fun _ _ ↦ rfl⟩
  | false =>
    exact ⟨.word ⟨false, jsonFalseStr, by decide, isLetter_of_all rfl⟩, rfl, fun h ↦ h, trivial, rfl, trivial,
      fun _ ↦ trivial, fun _ _ ↦ rfl⟩

theorem encodesElements_nil : EncodesElements E ld2sds [] [] where
  first _ := rfl
  more _ := rfl
  noString := trivial
  levels := rfl
  differ := trivial
  fit _ := trivial
  meaning _ _ := rfl

theorem encodesElements_cons {v : Value D} {vs : List (Value D)} {d : JsonDoc} {ds : List JsonDoc}
    (hv : Encodes E ld2sds v d) (hvs : EncodesElements E ld2sds vs ds) :
    EncodesElements E ld2sds (v :: vs) (d :: ds) where
  first result := by
    rw [jsonElementsToSds, hv.text, Option.bind_some, hvs.more, cString_eq_self d.zero_notMem_render,
      renderElements, List.append_assoc]
    rfl
  more result := by
    rw [jsonElementsToSds, hv.text, Option.bind_some, hvs.more, cString_eq_self d.zero_notMem_render,
      renderMoreElements, List.append_assoc]
    rfl
  noString := ⟨hv.noString, hvs.noString⟩
  levels := by rw [elementLevels, elementValueLevels, hv.levels, hvs.levels]
  differ := ⟨hv.differ, hvs.differ⟩
  fit h := ⟨hv.fit h.1, hvs.fit h.2⟩
  meaning hstrict hull := by
    rw [elementMeanings, hv.meaning hstrict hull, Option.bind_some, hvs.meaning hstrict hull]
    rfl

theorem encodesMembers_nil : EncodesMembers E ld2sds [] [] where
  first _ := rfl
  more _ := rfl
  keys := rfl
  noString := trivial
  levels := rfl
  differ := trivial
  fit _ := ⟨fun _ hm ↦ absurd hm List.not_mem_nil, trivial⟩
  meaning _ _ := rfl

theorem encodesMembers_cons {k : List UInt8} {v : Value D} {vs : List (List UInt8 × Value D)}
    {d : JsonDoc} {ms : List (JsonName × JsonDoc)} (hk : ∀ c ∈ k, c ≠ 0 ∧ c ≠ 34 ∧ c ≠ 92)
    (hv : Encodes E ld2sds v d) (hvs : EncodesMembers E ld2sds vs ms) :
    ∃ name, EncodesMembers E ld2sds ((k, v) :: vs) ((name, d) :: ms) := by
  obtain ⟨chars, htail, hbytes⟩ := exists_chars hk
  have hzero : 0 ∉ k := fun h ↦ (hk 0 h).1 rfl
  have hkey : (⟨noWs, chars, noWs⟩ : JsonName).key = k := by
    rw [JsonName.key, hbytes, cString_eq_self hzero]
  have hname : cString (sdsToString k) ++ [':'.toUInt8] = (⟨noWs, chars, noWs⟩ : JsonName).text := by
    have hquoted : 0 ∉ sdsToString k := by
      rw [sdsToString, cString_eq_self hzero]
      refine List.not_mem_cons_of_ne_of_not_mem (by decide) ?_
      rw [List.mem_append, not_or]
      exact ⟨hzero, by decide⟩
    rw [cString_eq_self hquoted, sdsToString, cString_eq_self hzero, JsonName.text, htail]
    rfl
  refine ⟨⟨noWs, chars, noWs⟩, ?_⟩
  have hloop : ∀ (frist : Bool) (result : List UInt8),
      (jsonMembersToSds ld2sds frist ((k, v) :: vs) result).map (· ++ ['}'.toUInt8]) =
        some (result ++ ((if frist then [] else [','.toUInt8]) ++
          ((⟨noWs, chars, noWs⟩ : JsonName).text ++ (d.render ++ renderMoreMembers ms)))) := by
    intro frist result
    rw [jsonMembersToSds, hv.text, Option.bind_some, hvs.more,
      cString_eq_self d.zero_notMem_render, ← hname]
    simp only [List.append_assoc, List.cons_append, List.nil_append]
  refine ⟨fun result ↦ hloop true result, fun result ↦ hloop false result, ?_,
    ⟨hv.noString, hvs.noString⟩, ?_, ⟨hv.differ, hvs.differ⟩, fun h ↦ ⟨?_, hv.fit h.2.1, ?_⟩,
    fun hstrict hull ↦ ?_⟩
  · rw [List.map_cons, hkey, hvs.keys]
    rfl
  · rw [memberLevels, memberValueLevels, hv.levels, hvs.levels]
  · intro m hm
    obtain rfl | hm := List.mem_cons.mp hm
    · rw [hbytes]
      exact h.1
    · exact (hvs.fit h.2.2).1 m hm
  · exact (hvs.fit h.2.2).2
  · rw [memberMeanings, hv.meaning hstrict hull, Option.bind_some, hvs.meaning hstrict hull, hkey]
    rfl

theorem encodes_array {vs : List (Value D)} {ds : List JsonDoc}
    (h : EncodesElements E ld2sds vs ds) : Encodes E ld2sds (.array vs) (.array noWs ds) where
  text := h.first ['['.toUInt8]
  container _ := trivial
  noString := ⟨trivial, h.noString⟩
  levels := h.levels
  differ := ⟨trivial, h.differ⟩
  fit hkeys := ⟨trivial, h.fit hkeys⟩
  meaning hstrict hull := by
    rw [JsonDoc.meaning, h.meaning hstrict hull]
    rfl

theorem map_fst_membersComeBack (ms : List (List UInt8 × Value D)) :
    (membersComeBack ms).map Prod.fst = ms.map Prod.fst := by
  induction ms with
  | nil => rfl
  | cons m ms ih =>
    obtain ⟨k, v⟩ := m
    rw [membersComeBack, List.map_cons, List.map_cons, ih]

theorem encodes_map {vs : List (List UInt8 × Value D)} {ms : List (JsonName × JsonDoc)}
    (hnodup : (vs.map Prod.fst).Nodup) (h : EncodesMembers E ld2sds vs ms) :
    Encodes E ld2sds (.map vs) (.object noWs ms) where
  text := h.first ['{'.toUInt8]
  container _ := trivial
  noString := ⟨trivial, h.noString⟩
  levels := h.levels
  differ := ⟨by rwa [JsonDoc.NamesDiffer, h.keys], h.differ⟩
  fit hkeys := h.fit hkeys
  meaning hstrict hull := by
    rw [JsonDoc.meaning, h.meaning hstrict hull, Option.map_some, lastMembers_of_nodup, Value.comesBack]
    rwa [map_fst_membersComeBack]

mutual

/-- **The text of a value.** -/
theorem exists_encodes (v : Value D) (hv : v.Plain) : ∃ d, Encodes E ld2sds v d := by
  cases v with
  | int l => exact encodes_int l
  | uint l => exact encodes_uint l
  | boolean b => exact encodes_boolean b
  | array elements =>
    obtain ⟨ds, hds⟩ := exists_encodesElements elements hv
    exact ⟨_, encodes_array hds⟩
  | map members =>
    obtain ⟨ms, hms⟩ := exists_encodesMembers members hv.2
    exact ⟨_, encodes_map hv.1 hms⟩
  | null => exact hv.elim
  | undefined => exact hv.elim
  | constantChar s => exact hv.elim
  | sds s => exact hv.elim
  | double d => exact hv.elim

theorem exists_encodesElements (vs : List (Value D)) (hvs : plainElements vs) :
    ∃ ds, EncodesElements E ld2sds vs ds := by
  cases vs with
  | nil => exact ⟨[], encodesElements_nil⟩
  | cons v vs =>
    obtain ⟨d, hd⟩ := exists_encodes v hvs.1
    obtain ⟨ds, hds⟩ := exists_encodesElements vs hvs.2
    exact ⟨d :: ds, encodesElements_cons hd hds⟩

theorem exists_encodesMembers (vs : List (List UInt8 × Value D)) (hvs : plainMembers vs) :
    ∃ ms, EncodesMembers E ld2sds vs ms := by
  cases vs with
  | nil => exact ⟨[], encodesMembers_nil⟩
  | cons m vs =>
    obtain ⟨k, v⟩ := m
    obtain ⟨d, hd⟩ := exists_encodes v hvs.2.1
    obtain ⟨ms, hms⟩ := exists_encodesMembers vs hvs.2.2
    obtain ⟨name, h⟩ := encodesMembers_cons hvs.1 hd hms
    exact ⟨_, h⟩

end

end Encode

end LatteC
