import LatteC.Dict.Fingerprint

/-!
# Comparing two dictionaries

`private_dict_cmp` of `src/dict/dict.c` iterates over one dictionary and looks its keys up in the other. A
lookup takes a step of the rehash that may be in progress. This is no harm to the iteration as long as the
two references are not to the same dictionary; if they are, the iterator notices when it is released. The
dictionaries meet the invariant, so that `pauserehash` is 0 and the step is taken.

References are numbers, and a heap says what they are to.
-/

namespace LatteC

variable {K V : Type}

/-- `dict_find`, with the pointers to the tables. They change when the rehash comes to its end, as table 1
takes the place of table 0. -/
def dictObjectFind (F : DictFunc K) (o : DictObject K V) (key : K) :
    Option (DictObject K V × Option (DictEntry K V)) :=
  (dictFind F o.dict key).map fun r ↦
    if dictIsRehashing o.dict ∧ ¬dictIsRehashing r.1 then (⟨r.1, o.ptr1, 0⟩, r.2)
    else ({ o with dict := r.1 }, r.2)

/-- The loop of `private_dict_cmp`: the heap, the iterator and `result` at `end`. -/
def privateDictCmpLoop (F : DictFunc K) (cmp : Option V → Option V → ℤ) (a b : ℕ) :
    (fuel : ℕ) → (ℕ → DictObject K V) → DictUnsafeIterator K V →
      Option ((ℕ → DictObject K V) × DictUnsafeIterator K V × ℤ)
  | 0, _, _ => none
  | fuel + 1, heap, it =>
    (protectedDictIteratorHasNext F (heap a) it).bind fun r ↦
      match r with
      | (it, false) => some (heap, it, 0)
      | (it, true) =>
        (protectedDictIteratorNext F (heap a) it).bind fun r ↦
          match r with
          | (_, none) => none
          | (it, some pair) =>
            (dictObjectFind F (heap b) pair.key).bind fun r ↦
              let heap := Function.update heap b r.1
              match r.2 with
              | none => some (heap, it, -1)
              | some entry =>
                let result := cmp pair.v entry.v
                if result ≠ 0 then some (heap, it, result)
                else privateDictCmpLoop F cmp a b fuel heap it

/-- `private_dict_cmp`. The difference of the sizes is returned as an `int`. -/
def privateDictCmp (F : DictFunc K) (cmp : Option V → Option V → ℤ) (heap : ℕ → DictObject K V)
    (a b : ℕ) (garbage : UInt64) : Option ((ℕ → DictObject K V) × ℤ) :=
  if dictSize (heap a).dict ≠ dictSize (heap b).dict then
    some (heap, ((dictSize (heap a).dict : ℤ) - dictSize (heap b).dict).bmod (2 ^ 32))
  else
    (privateDictCmpLoop F cmp a b (dictSlots (heap a).dict + dictSize (heap a).dict + 1) heap
      (dictGetUnsafeIterator garbage)).bind fun r ↦
        (protectedDictIteratorDelete (r.1 a) r.2.1).map fun _ ↦ (r.1, r.2.2)

/-! ## What it is for -/

/-- The same keys have equal values in both. -/
def DictSame (F : DictFunc K) (d d' : Dict K V) : Prop :=
  ∀ k, ((d.toMap F).lookup k).map DictEntry.v = ((d'.toMap F).lookup k).map DictEntry.v

/-- The comparison comes to an end, with 0 if and only if the dictionaries are the same, and both have what
they had. -/
def PrivateDictCmpRight (F : DictFunc K) (cmp : Option V → Option V → ℤ)
    (heap : ℕ → DictObject K V) (a b : ℕ) (garbage : UInt64) : Prop :=
  ∃ heap' result, privateDictCmp F cmp heap a b garbage = some (heap', result) ∧
    (result = 0 ↔ DictSame F (heap a).dict (heap b).dict) ∧
    (heap' a).dict.toMap F = (heap a).dict.toMap F ∧
    (heap' b).dict.toMap F = (heap b).dict.toMap F

/-! ## Looking up -/

/-- Without a rehash a lookup changes nothing. -/
theorem dictFind_of_not_rehashing {F : DictFunc K} {d d' : Dict K V} {key : K}
    {e : Option (DictEntry K V)} (hidle : dictIsRehashing d = false)
    (hfind : dictFind F d key = some (d', e)) : d' = d := by
  have hstep : dictRehashStep F d = some d := by
    rw [dictRehashStep, if_neg (by rw [hidle]; exact Bool.false_ne_true)]
  rw [dictFind, hstep, Option.bind_some] at hfind
  split_ifs at hfind with _ hrehashing
  · exact (Prod.mk.inj (Option.some.inj hfind)).1.symm
  · rw [hidle] at hrehashing
    exact absurd hrehashing Bool.false_ne_true
  · obtain ⟨chain, -, hres⟩ := Option.bind_eq_some_iff.mp hfind
    cases hchain : dictChainFind F key chain with
    | none =>
      rw [hchain] at hres
      exact (Prod.mk.inj (Option.some.inj hres)).1.symm
    | some he =>
      rw [hchain] at hres
      exact (Prod.mk.inj (Option.some.inj hres)).1.symm

theorem dictObjectFind_spec {F : DictFunc K} {o : DictObject K V} (h : o.dict.Inv F) (key : K) :
    ∃ o', dictObjectFind F o key = some (o', (o.dict.toMap F).lookup (F.cls key)) ∧
      o'.dict.Inv F ∧ o'.dict.toMap F = o.dict.toMap F ∧
      (dictIsRehashing o.dict = false → o' = o) := by
  obtain ⟨d, hfind, hinv, hmap⟩ := dictFind_spec h key
  rw [dictObjectFind, hfind, Option.map_some]
  split_ifs with hend
  · refine ⟨_, rfl, hinv, hmap, fun hidle ↦ ?_⟩
    rw [hidle] at hend
    exact absurd hend.1 Bool.false_ne_true
  · refine ⟨_, rfl, hinv, hmap, fun hidle ↦ ?_⟩
    rw [dictFind_of_not_rehashing hidle hfind]

/-! ## The loop -/

section Loop

variable {F : DictFunc K} {cmp : Option V → Option V → ℤ} (hcmp : ∀ x y, cmp x y = 0 ↔ x = y)
  {a b : ℕ} {o : DictObject K V} (ho : o.dict.Inv F) {m : Finmap fun _ : F.Key ↦ DictEntry K V}

include hcmp

/-- **The loop**, with the entries `rest` still to come. The iterator can be released at its end. -/
theorem privateDictCmpLoop_spec : ∀ (rest : List (DictEntry K V)) (fuel : ℕ)
    (heap : ℕ → DictObject K V) (it : DictUnsafeIterator K V),
    heap a = o → (heap b).dict.Inv F → (heap b).dict.toMap F = m →
      (rest ≠ [] → a = b → dictIsRehashing o.dict = false) →
      DictUnsafeIterator.Ready ho rest it → rest.length < fuel →
      ∃ heap' it' result, privateDictCmpLoop F cmp a b fuel heap it = some (heap', it', result) ∧
        heap' a = o ∧ (heap' b).dict.toMap F = m ∧ protectedDictIteratorDelete o it' = some () ∧
        (result = 0 ↔ ∀ e ∈ rest, (m.lookup (F.cls e.key)).map DictEntry.v = some e.v) := by
  intro rest
  induction rest with
  | nil =>
    intro fuel heap it ha hb hm _ hready hfuel
    obtain ⟨fuel, rfl⟩ := Nat.exists_eq_succ_of_ne_zero hfuel.ne'
    obtain ⟨it', hhas, hended⟩ := hready.hasNext_nil
    refine ⟨heap, it', 0, ?_, ha, hm, hended.delete, iff_of_true rfl (by simp)⟩
    rw [privateDictCmpLoop, ha, hhas]
    rfl
  | cons x rest ih =>
    intro fuel heap it ha hb hm hstable hready hfuel
    obtain ⟨fuel, rfl⟩ := Nat.exists_eq_succ_of_ne_zero (Nat.ne_zero_of_lt hfuel)
    obtain ⟨it₁, hhas, hfetched⟩ := hready.hasNext_cons
    obtain ⟨it₂, hnext, hready₂⟩ := hfetched.next
    obtain ⟨ob, hfind, hinv, hmap, hsame⟩ := dictObjectFind_spec hb x.key
    rw [hm] at hfind hmap
    have ha' : Function.update heap b ob a = o := by
      by_cases hab : a = b
      · -- the dictionary that is iterated over stays as it is
        have hidle := hstable (List.cons_ne_nil x rest) hab
        rw [← ha, hab] at hidle
        rw [hsame hidle, Function.update_eq_self, ha]
      · rw [Function.update_of_ne hab, ha]
    have hb' : Function.update heap b ob b = ob := Function.update_self b ob heap
    rw [privateDictCmpLoop, ha, hhas, Option.bind_some]
    simp only [hnext, Option.bind_some, hfind]
    cases hlookup : m.lookup (F.cls x.key) with
    | none =>
      refine ⟨_, it₂, -1, rfl, ha', by rw [hb', hmap], hready₂.delete,
        iff_of_false (by decide) fun hall ↦ ?_⟩
      have hx := hall x List.mem_cons_self
      rw [hlookup] at hx
      cases hx
    | some entry =>
      by_cases hzero : cmp x.v entry.v = 0
      · obtain ⟨heap', it', result, hloop, hheap, hmap', hdelete, hresult⟩ :=
          ih fuel (Function.update heap b ob) it₂ ha' (by rwa [hb']) (by rw [hb', hmap])
            (fun _ ↦ hstable (List.cons_ne_nil x rest)) hready₂ (Nat.lt_of_succ_lt_succ hfuel)
        refine ⟨heap', it', result, ?_, hheap, hmap', hdelete, ?_⟩
        · simp only [hzero, ne_eq, not_true_eq_false, if_false]
          exact hloop
        · rw [hresult, List.forall_mem_cons, hlookup, Option.map_some, (hcmp _ _).mp hzero]
          exact ⟨fun hrest ↦ ⟨rfl, hrest⟩, fun hall ↦ hall.2⟩
      · refine ⟨_, it₂, cmp x.v entry.v, ?_, ha', by rw [hb', hmap], hready₂.delete,
          iff_of_false hzero fun hall ↦ ?_⟩
        · simp only [ne_eq, hzero, not_false_eq_true, if_true]
        · have hx := hall x List.mem_cons_self
          rw [hlookup, Option.map_some, Option.some.injEq] at hx
          exact hzero ((hcmp _ _).mpr hx.symm)

end Loop

/-! ## As many keys -/

/-- Equal dictionaries have equal sizes. -/
theorem DictSame.dictSize_eq {F : DictFunc K} {d d' : Dict K V} (h : d.Inv F) (h' : d'.Inv F)
    (hsame : DictSame F d d') : dictSize d = dictSize d' := by
  rw [h.dictSize_eq_card, h'.dictSize_eq_card]
  congr 1
  ext k
  rw [Finmap.mem_keys, Finmap.mem_keys, ← Finmap.lookup_isSome, ← Finmap.lookup_isSome,
    ← Option.isSome_map (f := DictEntry.v), hsame k, Option.isSome_map]

/-- With equal sizes it is enough to find the entries of one in the other. -/
theorem dictSame_iff {F : DictFunc K} {d d' : Dict K V} (h : d.Inv F) (h' : d'.Inv F)
    (hsize : dictSize d = dictSize d') : DictSame F d d' ↔
      ∀ e ∈ d.entries, ((d'.toMap F).lookup (F.cls e.key)).map DictEntry.v = some e.v := by
  refine ⟨fun hsame e he ↦ ?_, fun hall ↦ ?_⟩
  · rw [← hsame, h.mem_entries_iff.mp he, Option.map_some]
  · have hsub : (d.toMap F).keys ⊆ (d'.toMap F).keys := by
      intro k hk
      rw [Finmap.mem_keys, Finmap.mem_iff] at hk
      obtain ⟨e, he⟩ := hk
      obtain ⟨hmem, rfl⟩ := h.exists_entry_of_lookup he
      obtain ⟨e', he', -⟩ := Option.map_eq_some_iff.mp (hall e hmem)
      rw [Finmap.mem_keys, Finmap.mem_iff]
      exact ⟨e', he'⟩
    have hkeys : (d.toMap F).keys = (d'.toMap F).keys := by
      refine Finset.eq_of_subset_of_card_le hsub ?_
      rw [← h.dictSize_eq_card, ← h'.dictSize_eq_card, hsize]
    intro k
    cases hlookup : (d.toMap F).lookup k with
    | some e =>
      obtain ⟨hmem, rfl⟩ := h.exists_entry_of_lookup hlookup
      rw [hall e hmem, Option.map_some]
    | none =>
      have hnot : k ∉ (d'.toMap F).keys := by
        rw [← hkeys, Finmap.mem_keys]
        exact Finmap.lookup_eq_none.mp hlookup
      rw [Finmap.mem_keys] at hnot
      rw [Finmap.lookup_eq_none.mpr hnot]

/-! ## The comparison -/

/-- **Where the comparison is right**, as long as it does not iterate over a dictionary in the middle of a
rehash while it looks its keys up in the same dictionary: everywhere, unless the sizes differ by a multiple
of 2³², as then their difference is 0 as an `int`. -/
theorem privateDictCmp_right_iff (F : DictFunc K) (cmp : Option V → Option V → ℤ)
    (hcmp : ∀ x y, cmp x y = 0 ↔ x = y) (heap : ℕ → DictObject K V) (a b : ℕ) (garbage : UInt64)
    (ha : (heap a).dict.Inv F) (hb : (heap b).dict.Inv F)
    (hstable : a = b → dictIsRehashing (heap a).dict = true → dictSize (heap a).dict = 0) :
    PrivateDictCmpRight F cmp heap a b garbage ↔
      (dictSize (heap a).dict = dictSize (heap b).dict ∨
        ¬(2 ^ 32 : ℤ) ∣ (dictSize (heap a).dict : ℤ) - dictSize (heap b).dict) := by
  by_cases hsize : dictSize (heap a).dict = dictSize (heap b).dict
  · refine iff_of_true ?_ (.inl hsize)
    have hrest : (heap a).dict.entries ≠ [] → a = b → dictIsRehashing (heap a).dict = false := by
      intro hne hab
      by_contra hre
      have hzero := hstable hab (by rwa [Bool.not_eq_false] at hre)
      rw [ha.dictSize_eq_length, List.length_eq_zero_iff] at hzero
      exact hne hzero
    have hfuel : (heap a).dict.entries.length <
        dictSlots (heap a).dict + dictSize (heap a).dict + 1 := by
      rw [ha.dictSize_eq_length]
      omega
    obtain ⟨heap', it', result, hloop, hheap, hmap, hdelete, hresult⟩ :=
      privateDictCmpLoop_spec hcmp ha _ _ heap (dictGetUnsafeIterator garbage) rfl hb rfl hrest
        (DictUnsafeIterator.ready_new ha garbage) hfuel
    refine ⟨heap', result, ?_, ?_, by rw [hheap], hmap⟩
    · rw [privateDictCmp, if_neg (not_not_intro hsize), hloop, Option.bind_some]
      simp only [hheap, hdelete, Option.map_some]
    · rw [hresult, dictSame_iff ha hb hsize]
  · have hdiffer : ¬DictSame F (heap a).dict (heap b).dict :=
      fun hsame ↦ hsize (hsame.dictSize_eq ha hb)
    have hcast : ((2 ^ 32 : ℕ) : ℤ) = 2 ^ 32 := rfl
    rw [PrivateDictCmpRight, privateDictCmp, if_pos hsize, or_iff_right hsize, ← hcast,
      Int.dvd_iff_bmod_eq_zero]
    constructor
    · rintro ⟨heap', result, heq, hresult, -, -⟩
      rw [(Prod.mk.inj (Option.some.inj heq)).2]
      exact fun hzero ↦ hdiffer (hresult.mp hzero)
    · exact fun hne ↦ ⟨heap, _, rfl, iff_of_false hne hdiffer, rfl, rfl⟩

/-- A comparator of numbers; NULL is the smallest of them. -/
def natCmp (x y : Option ℕ) : ℤ :=
  match x, y with
  | none, none => 0
  | none, some _ => -1
  | some _, none => 1
  | some x, some y => x - y

theorem natCmp_eq_zero (x y : Option ℕ) : natCmp x y = 0 ↔ x = y := by
  cases x with
  | none => cases y <;> simp [natCmp]
  | some x =>
    cases y with
    | none => simp [natCmp]
    | some y =>
      rw [natCmp, Option.some.injEq]
      omega

/-- Two dictionaries with the same five keys, each in the middle of a rehash. -/
theorem privateDictCmp_right_iff_two : PrivateDictCmpRight natDictFunc natCmp
    (fun r ↦ if r = 0 then ⟨dictFiveKeys, 1024, 2048⟩ else ⟨dictFiveKeys, 4096, 8192⟩) 0 1 0 :=
  (privateDictCmp_right_iff natDictFunc natCmp natCmp_eq_zero
    (fun r ↦ if r = 0 then ⟨dictFiveKeys, 1024, 2048⟩ else ⟨dictFiveKeys, 4096, 8192⟩) 0 1 0
    inv_dictFiveKeys inv_dictFiveKeys (fun h ↦ by cases h)).mpr (.inl rfl)

/-- **A dictionary compared with itself in the middle of a rehash.** The comparison finds every key and comes
to the end with 0, but the lookups have moved the entries under the iterator, and its assertion fails. -/
theorem privateDictCmp_same_fails :
    (∃ heap' it', privateDictCmpLoop natDictFunc natCmp 0 0
        (dictSlots dictFiveKeys + dictSize dictFiveKeys + 1)
        (fun _ ↦ ⟨dictFiveKeys, 4096, 8192⟩) (dictGetUnsafeIterator 0) = some (heap', it', 0) ∧
      protectedDictIteratorDelete (heap' 0) it' = none) ∧
    ¬PrivateDictCmpRight natDictFunc natCmp (fun _ ↦ ⟨dictFiveKeys, 4096, 8192⟩) 0 0 0 := by
  have heval : (privateDictCmpLoop natDictFunc natCmp 0 0
      (dictSlots dictFiveKeys + dictSize dictFiveKeys + 1)
      (fun _ ↦ ⟨dictFiveKeys, 4096, 8192⟩) (dictGetUnsafeIterator 0)).map
        (fun r ↦ (r.2.2, protectedDictIteratorDelete (r.1 0) r.2.1)) = some (0, none) := by
    decide +kernel
  obtain ⟨⟨heap', it', result⟩, hloop, heq⟩ := Option.map_eq_some_iff.mp heval
  obtain ⟨rfl, hdelete⟩ := Prod.mk.inj heq
  refine ⟨⟨heap', it', hloop, hdelete⟩, ?_⟩
  rintro ⟨heap'', result, hcmp, -⟩
  rw [privateDictCmp, if_neg (not_not_intro rfl)] at hcmp
  dsimp only at hcmp
  rw [hloop, Option.bind_some, hdelete, Option.map_none] at hcmp
  cases hcmp

end LatteC
