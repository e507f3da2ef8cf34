import LatteC.Json.Encode

/-!
# The encoder and the tokener

A value of integers, booleans, arrays and maps comes back from its text, as long as the text and the keys
fit. No part of the text that ends early is accepted.
-/

namespace LatteC

open Decimal

section RoundTrip

variable {D : Type} {E : JsonEnv D} {ld2sds : D → Option (List UInt8)} {v : Value D}
  {s p : List UInt8}

theorem jsonEnvPlain_convertsNumerals : jsonEnvPlain.ConvertsNumerals := by
  intro n hn
  change plainStrtoull (natNumeral n) = some n
  rw [plainStrtoull, digitsValue_natNumeral]
  exact if_pos ⟨rfl, hn⟩

/-- **What has been encoded comes back.** -/
theorem sdsToJson_jsonToSds (hE : E.Zeroed) (hull : E.ConvertsNumerals) (hv : v.Plain)
    (hcontainer : v.IsContainer) (hlevels : v.levels < 32) (hkeys : v.KeysWithin (2 ^ 31 - 10)) :
    ∃ s, jsonToSds ld2sds v = some s ∧
      (s.length < 2 ^ 31 → SdsToJson E s (.accept v.comesBack)) := by
  obtain ⟨d, hd⟩ : ∃ d, Encodes E ld2sds v d := exists_encodes v hv
  refine ⟨d.render, hd.text, fun hlen ↦ ?_⟩
  refine (sdsToJson_accept_iff hE (hd.container hcontainer) hd.noString (hd.fit hkeys) _).mpr
    ⟨hlen, ?_, hd.differ, hd.meaning hE.strict hull⟩
  rwa [hd.levels]

/-- `[7, [true]]` comes back. -/
theorem sdsToJson_jsonToSds_of_list : ∃ s,
    jsonToSds (fun _ ↦ none) (.array [.int 7, .array [.boolean true]] : Value (Option Bool)) = some s ∧
      (s.length < 2 ^ 31 →
        SdsToJson jsonEnvPlain s (.accept (.array [.int 7, .array [.boolean true]]))) :=
  sdsToJson_jsonToSds jsonEnvPlain_zeroed jsonEnvPlain_convertsNumerals ⟨trivial, ⟨trivial, trivial⟩, trivial⟩
    trivial (by decide) ⟨trivial, ⟨trivial, trivial⟩, trivial⟩

/-! ## Texts that end early -/

/-- A text is not accepted, and NULL is stored for it. -/
def RejectedWithNull (E : JsonEnv D) (p : List UInt8) : Prop :=
  ¬JsonAccepts E p ∧ SdsToJson E p .reject

theorem sdsToJson_truncated (hE : E.Zeroed) (hv : v.Plain) (hcontainer : v.IsContainer)
    (hs : jsonToSds ld2sds v = some s) (hp : p <+: s) (hne : p ≠ s) :
    SdsToJson E p (if sdsLenInt p < 0 then ⟨0, none⟩ else .reject) := by
  obtain ⟨d, hd⟩ : ∃ d, Encodes E ld2sds v d := exists_encodes v hv
  obtain rfl := Option.some.inj (hs.symm.trans hd.text)
  exact sdsToJson_cut hE (hd.container hcontainer) hp (.inl hne)

/-- **Truncation.** No text that ends early is accepted, and NULL is stored for it if its length is not
negative as an `int`. -/
theorem rejectedWithNull_iff (hE : E.Zeroed) (hv : v.Plain) (hcontainer : v.IsContainer)
    (hs : jsonToSds ld2sds v = some s) (hp : p <+: s) (hne : p ≠ s) :
    RejectedWithNull E p ↔ 0 ≤ sdsLenInt p := by
  have hreply := sdsToJson_truncated hE hv hcontainer hs hp hne
  have hnot : ¬JsonAccepts E p := by
    rintro ⟨w, hw⟩
    have heq := congrArg JsonReply.rc (hw.unique hreply)
    split_ifs at heq <;> exact absurd heq Nat.one_ne_zero
  rw [RejectedWithNull, and_iff_right hnot]
  constructor
  · intro hreject
    by_contra hneg
    rw [if_pos (Int.not_le.mp hneg)] at hreply
    have heq := congrArg JsonReply.result (hreject.unique hreply)
    cases heq
  · intro hnonneg
    rwa [if_neg (Int.not_lt.mpr hnonneg)] at hreply

/-- `[true,[tr` of `[true,[true]]`. -/
theorem rejectedWithNull_bracket :
    RejectedWithNull jsonEnvPlain ([91] ++ jsonTrueStr ++ [44, 91, 116, 114]) := by
  have htext : jsonToSds (fun _ ↦ none)
      (.array [.boolean true, .array [.boolean true]] : Value (Option Bool)) =
        some ([91] ++ jsonTrueStr ++ [44, 91] ++ jsonTrueStr ++ [93, 93]) := rfl
  exact (rejectedWithNull_iff (v := .array [.boolean true, .array [.boolean true]]) jsonEnvPlain_zeroed
    ⟨trivial, ⟨trivial, trivial⟩, trivial⟩ trivial htext ⟨[117, 101, 93, 93], rfl⟩ (by decide)).mpr
    (by decide)

/-! ## Texts that are too long -/

/-- A map with one key. -/
def singleMap (k : List UInt8) : Value (Option Bool) := .map [(k, .boolean true)]

theorem singleMap_plain {k : List UInt8} (hk : ∀ c ∈ k, c ≠ 0 ∧ c ≠ 34 ∧ c ≠ 92) :
    (singleMap k).Plain :=
  ⟨List.nodup_singleton k, hk, trivial, trivial⟩

theorem length_jsonToSds_singleMap {k : List UInt8} (hk : ∀ c ∈ k, c ≠ 0 ∧ c ≠ 34 ∧ c ≠ 92) :
    ∃ s, jsonToSds (fun _ ↦ none) (singleMap k) = some s ∧ s.length = k.length + 9 := by
  have hzero : 0 ∉ k := fun h ↦ (hk 0 h).1 rfl
  have hquoted : 0 ∉ sdsToString k := by
    rw [sdsToString, cString_eq_self hzero]
    simp [hzero]
  refine ⟨_, rfl, ?_⟩
  rw [cString_eq_self hquoted, sdsToString, cString_eq_self hzero]
  have htrue : (cString jsonTrueStr).length = 4 := rfl
  simp only [List.length_append, List.length_cons, List.length_nil, if_true, htrue]
  omega

theorem plain_replicate (n : ℕ) :
    ∀ c ∈ List.replicate n (97 : UInt8), c ≠ 0 ∧ c ≠ 34 ∧ c ≠ 92 := by
  intro c hc
  rw [List.eq_of_mem_replicate hc]
  decide

/-- A key of 2³¹ characters: the text of its map is not accepted. -/
theorem not_sdsToJson_jsonToSds : ∃ s,
    (singleMap (List.replicate (2 ^ 31) 97)).Plain ∧
      jsonToSds (fun _ ↦ none) (singleMap (List.replicate (2 ^ 31) 97)) = some s ∧
        ¬JsonAccepts jsonEnvPlain s := by
  have hk := plain_replicate (2 ^ 31)
  obtain ⟨s, hs, hlen⟩ := length_jsonToSds_singleMap hk
  obtain ⟨d, hd⟩ : ∃ d, Encodes jsonEnvPlain (fun _ ↦ none) (singleMap (List.replicate (2 ^ 31) 97)) d :=
    exists_encodes _ (singleMap_plain hk)
  obtain rfl := Option.some.inj (hs.symm.trans hd.text)
  refine ⟨d.render, singleMap_plain hk, hs, ?_⟩
  rintro ⟨w, hw⟩
  have hshort := length_lt_of_accept jsonEnvPlain_zeroed (hd.container trivial) hw
  rw [List.length_replicate] at hlen
  omega

/-- The first 2³¹ characters of the same text: nothing is stored. -/
theorem not_rejectedWithNull : ∃ s,
    jsonToSds (fun _ ↦ none) (singleMap (List.replicate (2 ^ 31) 97)) = some s ∧
      s.take (2 ^ 31) ≠ s ∧ ¬RejectedWithNull jsonEnvPlain (s.take (2 ^ 31)) := by
  have hk := plain_replicate (2 ^ 31)
  obtain ⟨s, hs, hlen⟩ := length_jsonToSds_singleMap hk
  rw [List.length_replicate] at hlen
  have hlength : (s.take (2 ^ 31)).length = 2 ^ 31 := by
    rw [List.length_take]
    omega
  have hne : s.take (2 ^ 31) ≠ s := by
    intro heq
    rw [heq] at hlength
    omega
  refine ⟨s, hs, hne, ?_⟩
  rintro ⟨-, hreject⟩
  have hreply := sdsToJson_truncated jsonEnvPlain_zeroed (singleMap_plain hk) trivial hs
    (List.take_prefix _ s) hne
  have hneg : sdsLenInt (s.take (2 ^ 31)) < 0 := by
    rw [sdsLenInt, hlength]
    decide
  rw [if_pos hneg] at hreply
  have heq := congrArg JsonReply.result (hreject.unique hreply)
  cases heq

end RoundTrip

end LatteC
