import LatteC.Dict.SipHash
import LatteC.Sds.CString
import LatteC.Set.Basic

/-!
# Key plugins

`src/dict/dict_plugins.c`: the hash functions and the comparisons for keys that are `sds`, `sds` without
regard to case, and C strings. The two hash functions behind them are a parameter; all that is known of
them is which bytes they depend on.

A dictionary works on a set of keys. A plugin is lawful on it if equality of keys is an equivalence that the
hash respects.
-/

namespace LatteC

/-- `siphash` and `siphash_nocase` with the seed given: a function of the bytes, and one of the folded
bytes. -/
structure DictHashFunctions where
  siphash : List UInt8 → UInt64
  siphashNocase : List UInt8 → UInt64
  nocase : ∀ s t, s.map siptlw = t.map siptlw → siphashNocase s = siphashNocase t

/-- The hash functions that the library has. -/
def dictHashFunctions (seed : List UInt8) : DictHashFunctions where
  siphash key := siphash key seed
  siphashNocase key := siphashNocase key seed
  nocase s t h := by rw [siphashNocase_eq, siphashNocase_eq, h]

/-! ## The functions -/

section Plugins

variable (H : DictHashFunctions)

/-- `dict_gen_hash_function`. -/
def dictGenHashFunction (key : List UInt8) : UInt64 := H.siphash key

/-- `dict_gen_case_hash_function`. -/
def dictGenCaseHashFunction (buf : List UInt8) : UInt64 := H.siphashNocase buf

/-- `dict_sds_hash`. -/
def dictSdsHash (key : List UInt8) : UInt64 := dictGenHashFunction H key

/-- `dict_sds_case_hash`. -/
def dictSdsCaseHash (key : List UInt8) : UInt64 := dictGenCaseHashFunction H key

/-- `dict_char_hash`. -/
def dictCharHash (key : CString) : UInt64 := dictGenHashFunction H key.bytes

end Plugins

/-- `memcmp(key1, key2, l) == 0` for an `int` that has been checked to be the length of both keys. A
negative one is a `size_t` far above both, and the comparison leaves the keys. -/
def memcmpInt (key1 key2 : List UInt8) (l : ℤ) : Option Bool :=
  if l < 0 then none else some (decide (memcmp l.toNat key1 key2 = 0))

/-- `dict_sds_key_compare`, with no result where `memcmp` would leave the keys. -/
def dictSdsKeyCompareChecked (key1 key2 : List UInt8) : Option Bool :=
  let l1 := sdsLenInt key1
  let l2 := sdsLenInt key2
  if l1 ≠ l2 then some false else memcmpInt key1 key2 l1

/-- `dict_sds_key_case_compare`. -/
def dictSdsKeyCaseCompare (key1 key2 : List UInt8) : Option Bool :=
  some (decide (strcasecmp key1 key2 = 0))

/-- `dict_char_key_compare`. -/
def dictCharKeyCompare (key1 key2 : CString) : Option Bool :=
  let l1 := sdsLenInt key1.bytes
  let l2 := sdsLenInt key2.bytes
  if l1 ≠ l2 then some false else memcmpInt key1.bytes key2.bytes l1

/-- The two key functions of a `dict_func_t`. A comparison that leaves the keys has no result. -/
structure DictKeyPlugin (K : Type) where
  hashFunction : K → UInt64
  keyCompare : K → K → Option Bool

/-- The plugin for `sds` keys. -/
def sdsKeyPlugin (H : DictHashFunctions) : DictKeyPlugin (List UInt8) :=
  ⟨dictSdsHash H, dictSdsKeyCompareChecked⟩

/-- The plugin for `sds` keys without regard to case. -/
def sdsCaseKeyPlugin (H : DictHashFunctions) : DictKeyPlugin (List UInt8) :=
  ⟨dictSdsCaseHash H, dictSdsKeyCaseCompare⟩

/-- The plugin for C strings. -/
def charKeyPlugin (H : DictHashFunctions) : DictKeyPlugin CString :=
  ⟨dictCharHash H, dictCharKeyCompare⟩

@[simp] theorem sdsKeyPlugin_keyCompare (H : DictHashFunctions) (a b : List UInt8) :
    (sdsKeyPlugin H).keyCompare a b = dictSdsKeyCompareChecked a b := by
  rw [sdsKeyPlugin]

@[simp] theorem sdsKeyPlugin_hashFunction (H : DictHashFunctions) (a : List UInt8) :
    (sdsKeyPlugin H).hashFunction a = H.siphash a := rfl

@[simp] theorem sdsCaseKeyPlugin_keyCompare (H : DictHashFunctions) (a b : List UInt8) :
    (sdsCaseKeyPlugin H).keyCompare a b = dictSdsKeyCaseCompare a b := rfl

@[simp] theorem sdsCaseKeyPlugin_hashFunction (H : DictHashFunctions) (a : List UInt8) :
    (sdsCaseKeyPlugin H).hashFunction a = H.siphashNocase a := rfl

/-! ## What a dictionary needs of a plugin -/

/-- On these keys the comparison is an equivalence, and keys that compare equal have equal hashes. -/
structure DictKeyPlugin.LawfulOn {K : Type} (P : DictKeyPlugin K) (keys : Set K) : Prop where
  equivalence : Equivalence fun a b : keys ↦ P.keyCompare a b = some true
  hash_eq : ∀ a ∈ keys, ∀ b ∈ keys, P.keyCompare a b = some true →
    P.hashFunction a = P.hashFunction b

theorem DictKeyPlugin.LawfulOn.keyCompare_self {K : Type} {P : DictKeyPlugin K} {keys : Set K}
    (h : P.LawfulOn keys) {a : K} (ha : a ∈ keys) : P.keyCompare a a = some true :=
  h.equivalence.refl ⟨a, ha⟩

/-- The bytes that a comparison sees if the length is kept in an `int` that is not negative. -/
def comparedBytes (s : List UInt8) : List UInt8 := s.take (s.length % 2 ^ 32)

/-- A length that is not negative as an `int`. -/
def IntLength (s : List UInt8) : Prop := s.length % 2 ^ 32 < 2 ^ 31

theorem sdsLenInt_of_lt {s : List UInt8} (h : IntLength s) :
    sdsLenInt s = (s.length % 2 ^ 32 : ℕ) := by
  rw [IntLength] at h
  rw [sdsLenInt]
  omega

theorem sdsLenInt_neg {s : List UInt8} (h : ¬IntLength s) : sdsLenInt s < 0 := by
  rw [IntLength] at h
  rw [sdsLenInt]
  omega

theorem memcmp_take_eq_zero_iff {s t : List UInt8} {n : ℕ} (hs : n ≤ s.length)
    (ht : n ≤ t.length) : memcmp n s t = 0 ↔ s.take n = t.take n := by
  induction n generalizing s t with
  | zero => simp [memcmp]
  | succ n ih =>
    cases s with
    | nil => simp at hs
    | cons x xs =>
      cases t with
      | nil => simp at ht
      | cons y ys =>
        rw [memcmp, List.take_succ_cons, List.take_succ_cons, List.cons.injEq]
        split_ifs with hxy
        · rw [ih (Nat.le_of_succ_le_succ hs) (Nat.le_of_succ_le_succ ht), and_iff_right hxy]
        · rw [toNat_sub_toNat_eq_zero_iff]
          exact iff_of_false hxy fun h ↦ hxy h.1

/-- A key is equal to itself if its length is not negative as an `int`. -/
theorem dictSdsKeyCompareChecked_self (s : List UInt8) :
    dictSdsKeyCompareChecked s s = some true ↔ IntLength s := by
  rw [dictSdsKeyCompareChecked, if_neg (not_not_intro rfl), memcmpInt]
  by_cases hs : IntLength s
  · rw [sdsLenInt_of_lt hs, if_neg (by omega), Int.toNat_natCast]
    refine iff_of_true (congrArg some (decide_eq_true ?_)) hs
    exact (memcmp_take_eq_zero_iff (Nat.mod_le _ _) (Nat.mod_le _ _)).mpr rfl
  · rw [if_pos (sdsLenInt_neg hs)]
    exact iff_of_false (fun h ↦ Option.some_ne_none _ h.symm) hs

/-- **Two keys compare equal** if they are equal as far as the comparison sees them. -/
theorem dictSdsKeyCompareChecked_eq_iff {s t : List UInt8} (hs : IntLength s) (ht : IntLength t) :
    dictSdsKeyCompareChecked s t = some true ↔ comparedBytes s = comparedBytes t := by
  have hslen : (comparedBytes s).length = s.length % 2 ^ 32 := by
    rw [comparedBytes, List.length_take, min_eq_left (Nat.mod_le _ _)]
  have htlen : (comparedBytes t).length = t.length % 2 ^ 32 := by
    rw [comparedBytes, List.length_take, min_eq_left (Nat.mod_le _ _)]
  simp only [dictSdsKeyCompareChecked]
  rw [sdsLenInt_of_lt hs, sdsLenInt_of_lt ht]
  by_cases hlen : s.length % 2 ^ 32 = t.length % 2 ^ 32
  · rw [if_neg (not_not_intro (congrArg Nat.cast hlen)), memcmpInt, if_neg (by omega),
      Int.toNat_natCast, Option.some.injEq, decide_eq_true_eq,
      memcmp_take_eq_zero_iff (Nat.mod_le _ _) (by rw [hlen]; exact Nat.mod_le _ _)]
    rw [comparedBytes, comparedBytes, hlen]
  · rw [if_pos (fun h ↦ hlen (Nat.cast_injective h))]
    refine iff_of_false (by simp) fun h ↦ hlen ?_
    rw [← hslen, ← htlen, h]

/-- On keys whose lengths are not negative nothing is left. -/
theorem dictSdsKeyCompareChecked_eq {s t : List UInt8} (hs : IntLength s) :
    dictSdsKeyCompareChecked s t = some (dictSdsKeyCompare s t) := by
  have hnonneg : ¬sdsLenInt s < 0 := by rw [sdsLenInt_of_lt hs]; omega
  simp only [dictSdsKeyCompareChecked, dictSdsKeyCompare]
  split_ifs with hlen
  · rfl
  · rw [memcmpInt, if_neg hnonneg]

/-- Two keys compare equal without regard to case if they do as C strings. -/
theorem dictSdsKeyCaseCompare_eq_iff (s t : List UInt8) : dictSdsKeyCaseCompare s t = some true ↔
    (cString s).map siptlw = (cString t).map siptlw := by
  rw [dictSdsKeyCaseCompare, Option.some.injEq, decide_eq_true_eq, strcasecmp,
    strcmpBy_eq_zero_iff keepsNul_tolower]
  rfl

/-! ## Where the plugins are lawful -/

/-- A relation that says that the images under a function are equal. -/
theorem equivalence_of_image {α β : Type*} {r : α → α → Prop} (f : α → β)
    (h : ∀ a b, r a b ↔ f a = f b) : Equivalence r where
  refl a := (h a a).mpr rfl
  symm hab := (h _ _).mpr ((h _ _).mp hab).symm
  trans hab hbc := (h _ _).mpr (((h _ _).mp hab).trans ((h _ _).mp hbc))

/-- A hash function that tells one string from all others. -/
def tellApart (s : List UInt8) : DictHashFunctions where
  siphash t := if t = s then 1 else 0
  siphashNocase t := if t.map siptlw = s.map siptlw then 1 else 0
  nocase t u h := by rw [h]

theorem sdsKeyPlugin_lawfulOn_iff (keys : Set (List UInt8)) :
    (∀ H, (sdsKeyPlugin H).LawfulOn keys) ↔
      (∀ a ∈ keys, IntLength a) ∧
        ∀ a ∈ keys, ∀ b ∈ keys, comparedBytes a = comparedBytes b → a = b := by
  constructor
  · intro h
    have hint : ∀ a ∈ keys, IntLength a := by
      intro a ha
      have hself := (h (tellApart a)).keyCompare_self ha
      rwa [sdsKeyPlugin_keyCompare, dictSdsKeyCompareChecked_self] at hself
    refine ⟨hint, fun a ha b hb hab ↦ ?_⟩
    have hcompare : (sdsKeyPlugin (tellApart a)).keyCompare a b = some true := by
      rwa [sdsKeyPlugin_keyCompare, dictSdsKeyCompareChecked_eq_iff (hint a ha) (hint b hb)]
    have hhash := (h (tellApart a)).hash_eq a ha b hb hcompare
    by_contra hne
    simp only [sdsKeyPlugin_hashFunction, tellApart, if_true, if_neg (Ne.symm hne)] at hhash
    exact absurd hhash (by decide)
  · rintro ⟨hint, hinj⟩ H
    have hcompare : ∀ a ∈ keys, ∀ b ∈ keys, (sdsKeyPlugin H).keyCompare a b = some true ↔
        comparedBytes a = comparedBytes b := by
      intro a ha b hb
      rw [sdsKeyPlugin_keyCompare, dictSdsKeyCompareChecked_eq_iff (hint a ha) (hint b hb)]
    refine ⟨equivalence_of_image (fun a : keys ↦ comparedBytes a.1)
      fun a b ↦ hcompare a a.2 b b.2, fun a ha b hb hab ↦ ?_⟩
    rw [hinj a ha b hb ((hcompare a ha b hb).mp hab)]

theorem DictKeyPlugin.LawfulOn.dictSdsCaseHash_eq {H : DictHashFunctions} {keys : Set (List UInt8)}
    (h : (sdsCaseKeyPlugin H).LawfulOn keys) {a b : List UInt8} (ha : a ∈ keys) (hb : b ∈ keys)
    (hab : dictSdsKeyCaseCompare a b = some true) : dictSdsCaseHash H a = dictSdsCaseHash H b :=
  h.hash_eq a ha b hb hab

theorem sdsCaseKeyPlugin_lawfulOn_iff (keys : Set (List UInt8)) :
    (∀ H, (sdsCaseKeyPlugin H).LawfulOn keys) ↔
      ∀ a ∈ keys, ∀ b ∈ keys, (cString a).map siptlw = (cString b).map siptlw →
        a.map siptlw = b.map siptlw := by
  constructor
  · intro h a ha b hb hab
    have hcompare : (sdsCaseKeyPlugin (tellApart a)).keyCompare a b = some true := by
      rwa [sdsCaseKeyPlugin_keyCompare, dictSdsKeyCaseCompare_eq_iff]
    have hhash := (h (tellApart a)).hash_eq a ha b hb hcompare
    by_contra hne
    simp only [sdsCaseKeyPlugin_hashFunction, tellApart, if_true, if_neg (Ne.symm hne)] at hhash
    exact absurd hhash (by decide)
  · intro hinj H
    refine ⟨equivalence_of_image (fun a : keys ↦ (cString a.1).map siptlw)
      fun a b ↦ dictSdsKeyCaseCompare_eq_iff a.1 b.1, fun a ha b hb hab ↦ ?_⟩
    exact H.nocase a b (hinj a ha b hb ((dictSdsKeyCaseCompare_eq_iff a b).mp hab))

/-- A plugin that works on the images of its keys under a function is lawful where the other plugin is lawful
on the images. -/
theorem DictKeyPlugin.lawfulOn_image {K L : Type} {P : DictKeyPlugin K} {Q : DictKeyPlugin L}
    {f : K → L} (hhash : ∀ a, P.hashFunction a = Q.hashFunction (f a))
    (hcompare : ∀ a b, P.keyCompare a b = Q.keyCompare (f a) (f b)) (keys : Set K) :
    P.LawfulOn keys ↔ Q.LawfulOn (f '' keys) := by
  constructor
  · intro h
    refine ⟨⟨?_, ?_, ?_⟩, ?_⟩
    · rintro ⟨-, a, ha, rfl⟩
      exact (hcompare a a).symm.trans (h.equivalence.refl ⟨a, ha⟩)
    · rintro ⟨-, a, ha, rfl⟩ ⟨-, b, hb, rfl⟩ hab
      have hsymm := h.equivalence.symm (x := ⟨a, ha⟩) (y := ⟨b, hb⟩) ((hcompare a b).trans hab)
      exact (hcompare b a).symm.trans hsymm
    · rintro ⟨-, a, ha, rfl⟩ ⟨-, b, hb, rfl⟩ ⟨-, c, hc, rfl⟩ hab hbc
      have htrans := h.equivalence.trans (x := ⟨a, ha⟩) (y := ⟨b, hb⟩) (z := ⟨c, hc⟩)
        ((hcompare a b).trans hab) ((hcompare b c).trans hbc)
      exact (hcompare a c).symm.trans htrans
    · rintro - ⟨a, ha, rfl⟩ - ⟨b, hb, rfl⟩ hab
      rw [← hhash, ← hhash]
      exact h.hash_eq a ha b hb ((hcompare a b).trans hab)
  · intro h
    have hmem : ∀ {a}, a ∈ keys → f a ∈ f '' keys := Set.mem_image_of_mem f
    refine ⟨⟨?_, ?_, ?_⟩, ?_⟩
    · intro a
      exact (hcompare a a).trans (h.equivalence.refl ⟨f a, hmem a.2⟩)
    · intro a b hab
      have hsymm := h.equivalence.symm (x := ⟨f a, hmem a.2⟩) (y := ⟨f b, hmem b.2⟩)
        ((hcompare a b).symm.trans hab)
      exact (hcompare b a).trans hsymm
    · intro a b c hab hbc
      have htrans := h.equivalence.trans (x := ⟨f a, hmem a.2⟩) (y := ⟨f b, hmem b.2⟩)
        (z := ⟨f c, hmem c.2⟩) ((hcompare a b).symm.trans hab) ((hcompare b c).symm.trans hbc)
      exact (hcompare a c).trans htrans
    · intro a ha b hb hab
      rw [hhash, hhash]
      exact h.hash_eq (f a) (hmem ha) (f b) (hmem hb) ((hcompare a b).symm.trans hab)

theorem charKeyPlugin_lawfulOn_iff (keys : Set CString) :
    (∀ H, (charKeyPlugin H).LawfulOn keys) ↔
      (∀ a ∈ keys, IntLength a.bytes) ∧
        ∀ a ∈ keys, ∀ b ∈ keys, comparedBytes a.bytes = comparedBytes b.bytes → a = b := by
  have himage : (∀ H, (charKeyPlugin H).LawfulOn keys) ↔
      ∀ H, (sdsKeyPlugin H).LawfulOn (CString.bytes '' keys) :=
    forall_congr' fun H ↦ DictKeyPlugin.lawfulOn_image (f := CString.bytes) (fun _ ↦ rfl) (fun _ _ ↦ rfl) keys
  rw [himage, sdsKeyPlugin_lawfulOn_iff]
  simp only [Set.forall_mem_image, CString.ext_iff]

/-- **Where the key plugins are lawful**, whatever the hash functions make of the bytes they are given: on
`sds` keys and on C strings whose lengths are not negative as an `int`, if no two keys have the same bytes
up to this length; and without regard to case on `sds` keys such that no two are the same up to their first
NUL and differ behind it. -/
theorem keyPlugins_lawful_iff (sdsKeys caseKeys : Set (List UInt8)) (charKeys : Set CString) :
    ((∀ H, (sdsKeyPlugin H).LawfulOn sdsKeys) ↔
      (∀ a ∈ sdsKeys, IntLength a) ∧
        ∀ a ∈ sdsKeys, ∀ b ∈ sdsKeys, comparedBytes a = comparedBytes b → a = b) ∧
    ((∀ H, (sdsCaseKeyPlugin H).LawfulOn caseKeys) ↔
      ∀ a ∈ caseKeys, ∀ b ∈ caseKeys, (cString a).map siptlw = (cString b).map siptlw →
        a.map siptlw = b.map siptlw) ∧
    ((∀ H, (charKeyPlugin H).LawfulOn charKeys) ↔
      (∀ a ∈ charKeys, IntLength a.bytes) ∧
        ∀ a ∈ charKeys, ∀ b ∈ charKeys, comparedBytes a.bytes = comparedBytes b.bytes → a = b) :=
  ⟨sdsKeyPlugin_lawfulOn_iff sdsKeys, sdsCaseKeyPlugin_lawfulOn_iff caseKeys,
    charKeyPlugin_lawfulOn_iff charKeys⟩

/-- Two keys that are equal without regard to case, since the comparison ends at the NUL, but have two
hashes. -/
theorem dictSdsKeyCaseCompare_hash_ne :
    dictSdsKeyCaseCompare [97, 0, 98] [97, 0, 99] = some true ∧
      dictSdsCaseHash (dictHashFunctions (List.replicate 16 0)) [97, 0, 98] ≠
        dictSdsCaseHash (dictHashFunctions (List.replicate 16 0)) [97, 0, 99] ∧
      ¬∀ H keys, (sdsCaseKeyPlugin H).LawfulOn keys := by
  have hcompare : dictSdsKeyCaseCompare [97, 0, 98] [97, 0, 99] = some true := by decide
  have hhash : dictSdsCaseHash (dictHashFunctions (List.replicate 16 0)) [97, 0, 98] ≠
      dictSdsCaseHash (dictHashFunctions (List.replicate 16 0)) [97, 0, 99] := by decide +kernel
  refine ⟨hcompare, hhash, fun h ↦ hhash ?_⟩
  exact (h (dictHashFunctions (List.replicate 16 0)) Set.univ).dictSdsCaseHash_eq trivial trivial
    hcompare

end LatteC
