import LatteC.Dict.Invariant
import LatteC.Foundation.CallMachine

/-!
# The dictionary refines a finite map

Each operation is described once, on `Dict.toMap` alone. Runs of arbitrary calls then follow by
`CallMachine.run_refines`.

## The allocation bound

Adding a key is specified only as long as the entries fit into the address space: an entry takes
`sizeof(dict_entry_t)` = 24 bytes, so an allocation that succeeds leaves fewer than `2 ^ 60` keys.
Beyond that bound `_dict_expand` would report an overflow, and `dict_add` an error for a new key.
-/

namespace LatteC

variable {K V : Type}

/-! ## Looking up and deleting -/

theorem dictFind_spec {F : DictFunc K} {d : Dict K V} (h : d.Inv F) (key : K) :
    ∃ d', dictFind F d key = some (d', (d.toMap F).lookup (F.cls key)) ∧ d'.Inv F ∧
      d'.toMap F = d.toMap F := by
  rw [dictFind]
  split_ifs with hsize
  · exact ⟨d, by rw [h.lookup_of_dictSize_eq_zero hsize], h, rfl⟩
  obtain ⟨d', hstep, h', hperm⟩ := dictRehashStep_spec h
  have hmap := h.toMap_eq_of_perm hperm
  have hsize' : dictSize d' ≠ 0 := by
    rwa [h'.dictSize_eq_length, hperm.length_eq, ← h.dictSize_eq_length]
  rw [hstep, Option.bind_some, ← hmap]
  refine ⟨d', ?_, h', rfl⟩
  cases h'.search (h'.live_of_dictSize_ne_zero hsize') key with
  | inOld live bucket find lookup =>
    rw [live.bucket?, bucket, lookup]
    simp [find]
  | idle live bucket find idle lookup =>
    rw [live.bucket?, bucket, lookup]
    simp [find, idle.dictIsRehashing]
  | inNew live₀ bucket₀ find₀ live₁ bucket₁ rehashing lookup =>
    rw [live₀.bucket?, bucket₀]
    simp [find₀, rehashing.dictIsRehashing, live₁.bucket?, bucket₁, lookup]

/-- Replacing one table by another with one entry less. -/
private theorem inv_of_perm_cons {F : DictFunc K} {d d' : Dict K V} {he : DictEntry K V}
    (h : d.Inv F) (hpause : d'.pauserehash = 0) (htables : d'.Idle F ∨ ∃ r, d'.Rehashing F r)
    (hperm : d.entries.Perm (he :: d'.entries)) :
    d'.Inv F ∧ d'.toMap F = (d.toMap F).erase (F.cls he.key) := by
  refine ⟨⟨hpause, htables, ?_⟩, KeyedList.toMap_erase h.distinct hperm⟩
  have := nodup_cls_of_perm hperm.symm h.distinct
  rw [List.map_cons, List.nodup_cons] at this
  exact this.2

theorem dictGenericDelete_spec {F : DictFunc K} {d : Dict K V} (h : d.Inv F) (key : K) :
    ∃ d', dictGenericDelete F d key = some (d', (d.toMap F).lookup (F.cls key)) ∧ d'.Inv F ∧
      d'.toMap F = (d.toMap F).erase (F.cls key) := by
  have hkeep : ∀ {d₁ : Dict K V}, (d₁.toMap F).lookup (F.cls key) = none →
      d₁.toMap F = (d₁.toMap F).erase (F.cls key) := by
    intro d₁ hnone
    refine Finmap.ext_lookup fun k ↦ ?_
    by_cases hk : k = F.cls key
    · rw [hk, hnone, Finmap.lookup_erase]
    · rw [Finmap.lookup_erase_ne hk]
  rw [dictGenericDelete]
  split_ifs with hsize
  · have hnone := h.lookup_of_dictSize_eq_zero hsize key
    exact ⟨d, by rw [hnone], h, hkeep hnone⟩
  obtain ⟨d', hstep, h', hperm⟩ := dictRehashStep_spec h
  have hmap := h.toMap_eq_of_perm hperm
  have hsize' : dictSize d' ≠ 0 := by
    rwa [h'.dictSize_eq_length, hperm.length_eq, ← h.dictSize_eq_length]
  rw [hstep, Option.bind_some, ← hmap]
  simp only
  cases h'.search (h'.live_of_dictSize_ne_zero hsize') key with
  | @inOld e bs b he live bucket find lookup =>
    obtain ⟨bs', hlive', hp⟩ := live.unlink bucket find
    have hcls : F.cls he.key = F.cls key :=
      (F.cls_eq_cls_iff.mpr ((live.chainFind bucket).1 he find).2).symm
    refine ⟨{ d' with ht0 := d'.ht0.unlink F (F.slot d'.ht0.sizeExp key) b key }, ?_, ?_⟩
    · rw [live.bucket?, bucket, lookup]
      simp [find]
    rw [← hcls]
    refine inv_of_perm_cons h' h'.pauserehash ?_ ?_
    · rcases h'.tables with hi | ⟨r, hr⟩
      · exact Or.inl ⟨hi.rehashidx, hi.ht1, Or.inr ⟨e, bs', hlive'⟩⟩
      · -- the entry came out of a bucket at or behind `rehashidx`
        obtain ⟨e₀, bs₀, h0, hle, hempty⟩ := hr.ht0
        obtain rfl : bs₀ = bs := Option.some.inj (h0.table.symm.trans live.table)
        obtain rfl : e₀ = e := Option.some.inj (h0.sizeExp.symm.trans live.sizeExp)
        refine Or.inr ⟨r, hr.rehashidx, hr.ht1, e₀, bs', hlive', hle, fun i hi ↦ ?_⟩
        have htable : bs' = bs₀.set (F.slot d'.ht0.sizeExp key)
            (b.eraseP fun x ↦ F.keyCompare key x.key) := by
          refine Option.some.inj (hlive'.table.symm.trans ?_)
          rw [DictTable.unlink, DictTable.setBucket, h0.table]
          rfl
        have hne : F.slot d'.ht0.sizeExp key ≠ i := by
          rintro rfl
          rw [hempty _ hi] at bucket
          rw [← Option.some.inj bucket] at find
          simp [dictChainFind] at find
        rw [htable, List.getElem?_set_ne hne]
        exact hempty i hi
    · rw [Dict.entries, Dict.entries, live.entries, hlive'.entries]
      exact hp.append_right _
  | idle live bucket find idle lookup =>
    refine ⟨d', ?_, h', hkeep lookup⟩
    rw [live.bucket?, bucket, lookup]
    simp [find, idle.dictIsRehashing]
  | @inNew r e₀ e₁ bs₀ bs₁ b₀ b₁ live₀ bucket₀ find₀ live₁ bucket₁ rehashing lookup =>
    rw [live₀.bucket?, bucket₀, ← lookup]
    cases hfind : dictChainFind F key b₁ with
    | none =>
      refine ⟨d', ?_, h', hkeep (lookup.symm.trans hfind)⟩
      simp [find₀, rehashing.dictIsRehashing, live₁.bucket?, bucket₁, hfind]
    | some he =>
      obtain ⟨bs', hlive', hp⟩ := live₁.unlink bucket₁ hfind
      have hcls : F.cls he.key = F.cls key :=
        (F.cls_eq_cls_iff.mpr ((live₁.chainFind bucket₁).1 he hfind).2).symm
      refine ⟨{ d' with ht1 := d'.ht1.unlink F (F.slot d'.ht1.sizeExp key) b₁ key }, ?_, ?_⟩
      · simp [find₀, rehashing.dictIsRehashing, live₁.bucket?, bucket₁, hfind]
      rw [← hcls]
      refine inv_of_perm_cons h' h'.pauserehash
        (Or.inr ⟨r, rehashing.rehashidx, ⟨e₁, bs', hlive'⟩, rehashing.ht0⟩) ?_
      rw [Dict.entries, Dict.entries, live₁.entries, hlive'.entries]
      exact (hp.append_left _).trans List.perm_middle

/-! ## Adding -/

/-- Writing the value of an entry that was just linked in is linking it in with that value. -/
theorem DictTable.setHeadVal_of_link {t t' : DictTable K V} {i : ℕ} {x : DictEntry K V}
    (h : t.link i x = some t') (val : V) :
    t'.setHeadVal i val = t.link i { x with v := some val } := by
  rw [DictTable.link, Option.map_eq_some_iff] at h
  obtain ⟨b, hb, rfl⟩ := h
  rw [DictTable.link, hb, Option.map_some]
  rw [DictTable.bucket?, Option.bind_eq_some_iff] at hb
  obtain ⟨bs, htable, hi⟩ := hb
  have hlt : i < bs.length := (List.getElem?_eq_some_iff.mp hi).1
  simp only [DictTable.setHeadVal, DictTable.bucket?, DictTable.setBucket, htable,
    Option.map_some, Option.bind_some, List.getElem?_set_self hlt, List.set_set]

/-- Adding one entry whose key is not there yet. -/
private theorem inv_of_cons_perm {F : DictFunc K} {d d' : Dict K V} {x : DictEntry K V}
    (h : d.Inv F) (hnone : (d.toMap F).lookup (F.cls x.key) = none)
    (hpause : d'.pauserehash = 0) (htables : d'.Idle F ∨ ∃ r, d'.Rehashing F r)
    (hperm : d'.entries.Perm (x :: d.entries)) :
    d'.Inv F ∧ d'.toMap F = (d.toMap F).insert (F.cls x.key) x := by
  have hnd : ((x :: d.entries).map fun e ↦ F.cls e.key).Nodup := by
    rw [List.map_cons, List.nodup_cons]
    refine ⟨fun hmem ↦ ?_, h.distinct⟩
    obtain ⟨y, hy, hcls⟩ := List.mem_map.mp hmem
    rw [h.lookup_of_mem hy (F.cls_eq_cls_iff.mp hcls.symm)] at hnone
    simp at hnone
  refine ⟨⟨hpause, htables, nodup_cls_of_perm hperm hnd⟩, ?_⟩
  rw [Dict.toMap, ← KeyedList.toMap_perm hnd hperm.symm, KeyedList.toMap_cons]
  rfl

/-- Where an entry for `key` may be linked in: the bucket at this position takes any entry with
that key. -/
def Dict.Admits (F : DictFunc K) (d : Dict K V) (key : K) (index : ℕ) : Prop :=
  ∀ x : DictEntry K V, x.key = key → ∃ t d',
    (if dictIsRehashing d then d.ht1.link index x else d.ht0.link index x) = some t ∧
    d' = (if dictIsRehashing d then { d with ht1 := t } else { d with ht0 := t }) ∧
    d'.Inv F ∧ d'.toMap F = (d.toMap F).insert (F.cls key) x

private theorem admits_idle {F : DictFunc K} {d : Dict K V} {key : K} {e : ℕ}
    {bs : List (List (DictEntry K V))} (h : d.Inv F) (hi : d.Idle F) (live : d.ht0.Live F e bs)
    (hnone : (d.toMap F).lookup (F.cls key) = none) :
    d.Admits F key (F.slot d.ht0.sizeExp key) := by
  rintro x rfl
  obtain ⟨t, -, bs', hlink, hlive', -, -, hp⟩ := live.link x
  refine ⟨t, { d with ht0 := t }, ?_, ?_, inv_of_cons_perm h hnone h.pauserehash
    (Or.inl ⟨hi.rehashidx, hi.ht1, Or.inr ⟨e, bs', hlive'⟩⟩) ?_⟩
  · simp [hi.dictIsRehashing, hlink]
  · simp [hi.dictIsRehashing]
  · rw [Dict.entries, Dict.entries, live.entries, hlive'.entries]
    exact hp.append_right _

private theorem admits_rehashing {F : DictFunc K} {d : Dict K V} {key : K} {r e : ℕ}
    {bs : List (List (DictEntry K V))} (h : d.Inv F) (hr : d.Rehashing F r)
    (live : d.ht1.Live F e bs) (hnone : (d.toMap F).lookup (F.cls key) = none) :
    d.Admits F key (F.slot d.ht1.sizeExp key) := by
  rintro x rfl
  obtain ⟨t, -, bs', hlink, hlive', -, -, hp⟩ := live.link x
  refine ⟨t, { d with ht1 := t }, ?_, ?_, inv_of_cons_perm h hnone h.pauserehash
    (Or.inr ⟨r, hr.rehashidx, ⟨e, bs', hlive'⟩, hr.ht0⟩) ?_⟩
  · simp [hr.dictIsRehashing, hlink]
  · simp [hr.dictIsRehashing]
  · rw [Dict.entries, Dict.entries, live.entries, hlive'.entries]
    exact (hp.append_left _).trans List.perm_middle

theorem dictKeyIndex_spec {F : DictFunc K} {d : Dict K V} (h : d.Inv F)
    (hfit : dictSize d < 2 ^ 60) (key : K) :
    ∃ d' r, dictKeyIndex F d key = some (d', r) ∧ d'.Inv F ∧ d'.toMap F = d.toMap F ∧
      match (d.toMap F).lookup (F.cls key), r with
      | some he, .taken existing => existing = some he
      | none, .free index => d'.Admits F key index
      | _, _ => False := by
  obtain ⟨d', hexp, h', hent, hlive⟩ := dictExpandIfNeeded_spec h hfit
  have hmap : d'.toMap F = d.toMap F := by rw [Dict.toMap, Dict.toMap, hent]
  rw [dictKeyIndex, hexp, ← hmap]
  simp only
  cases h'.search hlive key with
  | @inOld e bs b he live bucket find lookup =>
    refine ⟨d', .taken (some he), ?_, h', rfl, by rw [lookup]⟩
    rw [live.bucket?, bucket]
    simp [find]
  | @idle e bs b live bucket find idle lookup =>
    refine ⟨d', .free (F.slot d'.ht0.sizeExp key), ?_, h', rfl, ?_⟩
    · rw [live.bucket?, bucket]
      simp [find, idle.dictIsRehashing]
    · rw [lookup]
      exact admits_idle h' idle live lookup
  | @inNew r e₀ e₁ bs₀ bs₁ b₀ b₁ live₀ bucket₀ find₀ live₁ bucket₁ rehashing lookup =>
    rw [live₀.bucket?, bucket₀, ← lookup]
    cases hfind : dictChainFind F key b₁ with
    | some he =>
      refine ⟨d', .taken (some he), ?_, h', rfl, rfl⟩
      simp [find₀, rehashing.dictIsRehashing, live₁.bucket?, bucket₁, hfind]
    | none =>
      refine ⟨d', .free (F.slot d'.ht1.sizeExp key), ?_, h', rfl,
        admits_rehashing h' rehashing live₁ (lookup.symm.trans hfind)⟩
      simp [find₀, rehashing.dictIsRehashing, live₁.bucket?, bucket₁, hfind]

/-- `dict_add_raw` on a key that is there changes nothing and hands out its entry; on a new key it
files an entry without a value, which `dict_set_val` may then fill. -/
theorem dictAddRaw_spec {F : DictFunc K} {d : Dict K V} (h : d.Inv F)
    (hfit : dictSize d < 2 ^ 60) (key : K) :
    match (d.toMap F).lookup (F.cls key) with
    | some he => ∃ d', dictAddRaw F d key = some (d', none, some he) ∧ d'.Inv F ∧
        d'.toMap F = d.toMap F
    | none => ∃ d' pos, dictAddRaw F d key = some (d', some pos, none) ∧ d'.Inv F ∧
        d'.toMap F = (d.toMap F).insert (F.cls key) ⟨key, none⟩ ∧
        ∀ val, ∃ d'', dictSetVal d' pos val = some d'' ∧ d''.Inv F ∧
          d''.toMap F = (d.toMap F).insert (F.cls key) ⟨key, some val⟩ := by
  obtain ⟨d₁, hstep, h₁, hperm⟩ := dictRehashStep_spec h
  have hmap₁ := h.toMap_eq_of_perm hperm
  have hfit₁ : dictSize d₁ < 2 ^ 60 := by
    rwa [h₁.dictSize_eq_length, hperm.length_eq, ← h.dictSize_eq_length]
  obtain ⟨d₂, r, hkey, h₂, hmap₂, hres⟩ := dictKeyIndex_spec h₁ hfit₁ key
  rw [hmap₁] at hmap₂ hres
  rw [dictAddRaw, hstep, Option.bind_some, hkey, Option.bind_some]
  cases hlook : (d.toMap F).lookup (F.cls key) with
  | some he =>
    rw [hlook] at hres
    cases r with
    | free index => exact hres.elim
    | taken existing => exact ⟨d₂, by rw [show existing = some he from hres], h₂, hmap₂⟩
  | none =>
    rw [hlook] at hres
    cases r with
    | taken existing => exact hres.elim
    | free index =>
      have hadm : d₂.Admits F key index := hres
      obtain ⟨t, d', hlink, hd', hinv, hmap⟩ := hadm ⟨key, none⟩ rfl
      rw [hmap₂] at hmap
      by_cases hre : dictIsRehashing d₂ = true
      · rw [if_pos hre] at hlink hd'
        refine ⟨d', ⟨true, index⟩, by simp [hre, hlink, hd'], hinv, hmap, fun val ↦ ?_⟩
        obtain ⟨t', d'', hlink', hd'', hinv', hmap'⟩ := hadm ⟨key, some val⟩ rfl
        rw [if_pos hre] at hlink' hd''
        rw [hmap₂] at hmap'
        refine ⟨d'', ?_, hinv', hmap'⟩
        simp [dictSetVal, hd', DictTable.setHeadVal_of_link hlink, hlink', hd'']
      · rw [if_neg hre] at hlink hd'
        refine ⟨d', ⟨false, index⟩, by simp [hre, hlink, hd'], hinv, hmap, fun val ↦ ?_⟩
        obtain ⟨t', d'', hlink', hd'', hinv', hmap'⟩ := hadm ⟨key, some val⟩ rfl
        rw [if_neg hre] at hlink' hd''
        rw [hmap₂] at hmap'
        refine ⟨d'', ?_, hinv', hmap'⟩
        simp [dictSetVal, hd', DictTable.setHeadVal_of_link hlink, hlink', hd'']

theorem dictAdd_spec {F : DictFunc K} {d : Dict K V} (h : d.Inv F)
    (hfit : dictSize d < 2 ^ 60) (key : K) (val : V) :
    ∃ d' s, dictAdd F d key val = some (d', s) ∧ d'.Inv F ∧
      match (d.toMap F).lookup (F.cls key) with
      | some _ => s = .err ∧ d'.toMap F = d.toMap F
      | none => s = .ok ∧ d'.toMap F = (d.toMap F).insert (F.cls key) ⟨key, some val⟩ := by
  have hraw := dictAddRaw_spec h hfit key
  cases hlook : (d.toMap F).lookup (F.cls key) with
  | some he =>
    rw [hlook] at hraw
    obtain ⟨d', hadd, hinv, hmap⟩ := hraw
    exact ⟨d', .err, by rw [dictAdd, hadd, Option.bind_some], hinv, rfl, hmap⟩
  | none =>
    rw [hlook] at hraw
    obtain ⟨d', pos, hadd, -, -, hset⟩ := hraw
    obtain ⟨d'', hval, hinv, hmap⟩ := hset val
    exact ⟨d'', .ok, by rw [dictAdd, hadd, Option.bind_some]; simp only [hval, Option.map_some],
      hinv, rfl, hmap⟩

/-! ## Runs -/

/-- A call of the dictionary interface. -/
inductive DictCall (K V : Type) where
  | add (key : K) (val : V)
  | addRaw (key : K)
  | find (key : K)
  | deleteKey (key : K)
  | expand (size : ℕ)
  | rehash (n : ℕ)

/-- What a call tells its caller about the contents. `dict_expand` and `dict_rehash` only report on
the layout. -/
inductive DictReply (K V : Type) where
  | status (s : DictStatus)
  /-- Whether `dict_add_raw` returned an entry, and what it left in `*existing`. -/
  | raw (added : Bool) (existing : Option (DictEntry K V))
  | entry (he : Option (DictEntry K V))
  | done

/-- One call of the dictionary. -/
def dictStep (F : DictFunc K) (d : Dict K V) :
    DictCall K V → Option (Dict K V × DictReply K V)
  | .add key val => (dictAdd F d key val).map fun r ↦ (r.1, .status r.2)
  | .addRaw key => (dictAddRaw F d key).map fun r ↦ (r.1, .raw r.2.1.isSome r.2.2)
  | .find key => (dictFind F d key).map fun r ↦ (r.1, .entry r.2)
  | .deleteKey key => (dictDeleteKey F d key).map fun r ↦ (r.1, .status r.2)
  | .expand size => some ((dictExpand d size).1, .done)
  | .rehash n => (dictRehash F d n).map fun r ↦ (r.1, .done)

/-- The entries of that many keys fit into the address space. -/
def DictFits (n : ℕ) : Prop := n * 24 ≤ 2 ^ 64

instance (n : ℕ) : Decidable (DictFits n) := inferInstanceAs (Decidable (n * 24 ≤ 2 ^ 64))

/-- File an entry under a new key, if there is room for one more. -/
def dictMapInsert {F : DictFunc K} (m : Finmap fun _ : F.Key ↦ DictEntry K V)
    (e : DictEntry K V) (o : DictReply K V) :
    Option ((Finmap fun _ : F.Key ↦ DictEntry K V) × DictReply K V) :=
  if DictFits (m.keys.card + 1) then some (m.insert (F.cls e.key) e, o) else none

/-- One call of a finite map. It is defined where the dictionary's contract is: an entry to be
added can be allocated, a size is a machine word, and `n * 10` in `dict_rehash` does not overflow
an `int`. -/
def dictMapStep (F : DictFunc K) (m : Finmap fun _ : F.Key ↦ DictEntry K V) :
    DictCall K V → Option ((Finmap fun _ : F.Key ↦ DictEntry K V) × DictReply K V)
  | .add key val =>
    match m.lookup (F.cls key) with
    | some _ => some (m, .status .err)
    | none => dictMapInsert m ⟨key, some val⟩ (.status .ok)
  | .addRaw key =>
    match m.lookup (F.cls key) with
    | some he => some (m, .raw false (some he))
    | none => dictMapInsert m ⟨key, none⟩ (.raw true none)
  | .find key => some (m, .entry (m.lookup (F.cls key)))
  | .deleteKey key =>
    some (m.erase (F.cls key),
      .status (if (m.lookup (F.cls key)).isSome then .ok else .err))
  | .expand size => if size < 2 ^ 64 then some (m, .done) else none
  | .rehash n => if 1 ≤ n ∧ n ≤ (2 ^ 31 - 1) / 10 then some (m, .done) else none

/-- The dictionary is well formed and holds the entries of `m`. -/
def Dict.Represents (F : DictFunc K) (d : Dict K V)
    (m : Finmap fun _ : F.Key ↦ DictEntry K V) : Prop :=
  d.Inv F ∧ d.toMap F = m ∧ DictFits m.keys.card

theorem represents_dictNew (F : DictFunc K) : (dictNew : Dict K V).Represents F ∅ :=
  ⟨inv_dictNew F, toMap_dictNew F, by simp [DictFits]⟩

theorem Dict.Represents.dictSize_lt {F : DictFunc K} {d : Dict K V}
    {m : Finmap fun _ : F.Key ↦ DictEntry K V} (h : d.Represents F m) : dictSize d < 2 ^ 60 := by
  obtain ⟨hinv, rfl, hfits⟩ := h
  rw [hinv.dictSize_eq_card]
  rw [DictFits] at hfits
  omega

/-- A successful insertion has counted the new key. -/
private theorem dictFits_of_dictMapInsert {F : DictFunc K}
    {m m' : Finmap fun _ : F.Key ↦ DictEntry K V} {e : DictEntry K V} {o o' : DictReply K V}
    (h : dictMapInsert m e o = some (m', o')) :
    m' = m.insert (F.cls e.key) e ∧ o' = o ∧ DictFits m'.keys.card := by
  rw [dictMapInsert] at h
  split_ifs at h with hfits
  obtain ⟨rfl, rfl⟩ := Prod.mk.inj (Option.some.inj h)
  refine ⟨rfl, rfl, ?_⟩
  have hcard : (m.insert (F.cls e.key) e).keys.card ≤ m.keys.card + 1 := by
    have hkeys : (m.insert (F.cls e.key) e).keys = insert (F.cls e.key) m.keys := by
      ext k
      rw [Finmap.mem_keys, Finmap.mem_insert, Finset.mem_insert, Finmap.mem_keys]
    rw [hkeys]
    exact Finset.card_insert_le _ _
  rw [DictFits] at hfits ⊢
  omega

private theorem dictFits_erase {F : DictFunc K} {m : Finmap fun _ : F.Key ↦ DictEntry K V}
    (k : F.Key) (h : DictFits m.keys.card) : DictFits (m.erase k).keys.card := by
  have hcard : (m.erase k).keys.card ≤ m.keys.card := by
    refine Finset.card_le_card fun x hx ↦ ?_
    rw [Finmap.mem_keys, Finmap.mem_erase] at hx
    exact Finmap.mem_keys.mpr hx.2
  rw [DictFits] at h ⊢
  omega

theorem dictStep_refines (F : DictFunc K) (d : Dict K V)
    (m : Finmap fun _ : F.Key ↦ DictEntry K V) (c : DictCall K V)
    (m' : Finmap fun _ : F.Key ↦ DictEntry K V) (o : DictReply K V) (h : d.Represents F m)
    (hm : dictMapStep F m c = some (m', o)) :
    ∃ d', dictStep F d c = some (d', o) ∧ d'.Represents F m' := by
  have hfit := h.dictSize_lt
  obtain ⟨hinv, rfl, hfits⟩ := h
  cases c with
  | add key val =>
    obtain ⟨d', s, hadd, hinv', hres⟩ := dictAdd_spec hinv hfit key val
    rw [dictMapStep] at hm
    cases hlook : (d.toMap F).lookup (F.cls key) with
    | some he =>
      simp only [hlook] at hm hres
      obtain ⟨rfl, rfl⟩ := Prod.mk.inj (Option.some.inj hm)
      exact ⟨d', by rw [dictStep, hadd, hres.1]; rfl, hinv', hres.2, hfits⟩
    | none =>
      simp only [hlook] at hm hres
      obtain ⟨hm', rfl, hfits'⟩ := dictFits_of_dictMapInsert hm
      exact ⟨d', by rw [dictStep, hadd, hres.1]; rfl, hinv', hres.2.trans hm'.symm, hfits'⟩
  | addRaw key =>
    have hraw := dictAddRaw_spec hinv hfit key
    rw [dictMapStep] at hm
    cases hlook : (d.toMap F).lookup (F.cls key) with
    | some he =>
      simp only [hlook] at hm hraw
      obtain ⟨rfl, rfl⟩ := Prod.mk.inj (Option.some.inj hm)
      obtain ⟨d', hadd, hinv', hmap⟩ := hraw
      exact ⟨d', by rw [dictStep, hadd]; rfl, hinv', hmap, hfits⟩
    | none =>
      simp only [hlook] at hm hraw
      obtain ⟨d', pos, hadd, hinv', hmap, -⟩ := hraw
      obtain ⟨hm', rfl, hfits'⟩ := dictFits_of_dictMapInsert hm
      exact ⟨d', by rw [dictStep, hadd]; rfl, hinv', hmap.trans hm'.symm, hfits'⟩
  | find key =>
    obtain ⟨rfl, rfl⟩ := Prod.mk.inj (Option.some.inj hm)
    obtain ⟨d', hfind, hinv', hmap⟩ := dictFind_spec hinv key
    exact ⟨d', by rw [dictStep, hfind]; rfl, hinv', hmap, hfits⟩
  | deleteKey key =>
    obtain ⟨rfl, rfl⟩ := Prod.mk.inj (Option.some.inj hm)
    obtain ⟨d', hdel, hinv', hmap⟩ := dictGenericDelete_spec hinv key
    exact ⟨d', by rw [dictStep, dictDeleteKey, hdel]; rfl, hinv', hmap, dictFits_erase _ hfits⟩
  | expand size =>
    rw [dictMapStep] at hm
    split_ifs at hm with hsize
    obtain ⟨rfl, rfl⟩ := Prod.mk.inj (Option.some.inj hm)
    obtain ⟨hinv', hent, -⟩ := dictExpand_spec hinv size
    exact ⟨(dictExpand d size).1, rfl, hinv', by rw [Dict.toMap, hent]; rfl, hfits⟩
  | rehash n =>
    rw [dictMapStep] at hm
    split_ifs at hm with hn
    obtain ⟨rfl, rfl⟩ := Prod.mk.inj (Option.some.inj hm)
    obtain ⟨d', c, hre, hinv', hperm⟩ := dictRehash_spec hinv hn.1
    exact ⟨d', by rw [dictStep, hre]; rfl, hinv', hinv.toMap_eq_of_perm hperm, hfits⟩

/-- Every entry sits in the bucket that its hash names in the table holding it. -/
theorem Dict.Inv.slot_eq {F : DictFunc K} {d : Dict K V} (h : d.Inv F) {t : DictTable K V}
    (ht : t = d.ht0 ∨ t = d.ht1) {i : ℕ} {b : List (DictEntry K V)} (hb : t.bucket? i = some b)
    {x : DictEntry K V} (hx : x ∈ b) : F.slot t.sizeExp x.key = i := by
  have hlive : t = dictReset ∨ ∃ e bs, t.Live F e bs := by
    rcases h.tables with hi | ⟨r, hr⟩
    · rcases ht with rfl | rfl
      · exact hi.ht0
      · exact Or.inl hi.ht1
    · rcases ht with rfl | rfl
      · obtain ⟨e, bs, h0, -⟩ := hr.ht0
        exact Or.inr ⟨e, bs, h0⟩
      · exact Or.inr hr.ht1
  rcases hlive with rfl | ⟨e, bs, live⟩
  · simp [DictTable.bucket?, dictReset] at hb
  · rw [live.bucket?] at hb
    rw [live.sizeExp]
    exact live.placed i b hb x hx

theorem Dict.Inv.bucket_below_rehashidx {F : DictFunc K} {d : Dict K V} (h : d.Inv F) {r : ℕ}
    (hr : d.rehashidx = some r) {i : ℕ} (hi : i < r) : d.ht0.bucket? i = some [] := by
  rcases h.tables with hidle | ⟨r', hre⟩
  · rw [hidle.rehashidx] at hr
    simp at hr
  · obtain rfl : r' = r := Option.some.inj (hre.rehashidx.symm.trans hr)
    obtain ⟨e, bs, h0, -, hempty⟩ := hre.ht0
    rw [h0.bucket?, hempty i hi]

/-- **The dictionary is a finite map, at any stage of a rehash.** Whatever calls are made, and
whenever tables grow and buckets move, the replies are those of a finite map; the entries of both
tables together are that map, each key once and in the bucket its hash names; the buckets that
the rehash has passed are empty; and the two counters add up to the number of keys. -/
theorem dict_run_refines_map (F : DictFunc K) (calls : List (DictCall K V))
    (m : Finmap fun _ : F.Key ↦ DictEntry K V) (replies : List (DictReply K V))
    (hrun : CallMachine.run (dictMapStep F) ∅ calls = some (m, replies)) :
    ∃ d, CallMachine.run (dictStep F) dictNew calls = some (d, replies) ∧
      d.toMap F = m ∧ (d.entries.map fun e ↦ F.cls e.key).Nodup ∧
      (∀ t, t = d.ht0 ∨ t = d.ht1 → ∀ i b, t.bucket? i = some b →
        ∀ x ∈ b, F.slot t.sizeExp x.key = i) ∧
      (∀ r, d.rehashidx = some r → ∀ i < r, d.ht0.bucket? i = some []) ∧
      d.ht0.used + d.ht1.used = m.keys.card := by
  obtain ⟨d, hd, hinv, rfl, -⟩ :=
    CallMachine.run_refines (dictStep_refines F) (represents_dictNew F) hrun
  exact ⟨d, hd, rfl, hinv.distinct, fun t ht i b hb x hx ↦ hinv.slot_eq ht hb hx,
    fun r hr i hi ↦ hinv.bucket_below_rehashidx hr hi, hinv.dictSize_eq_card⟩

/-- Natural numbers that hash to themselves. -/
def natDictFunc : DictFunc ℕ where
  hashFunction := UInt64.ofNat
  keyCompare a b := a == b
  expandAllowed _ _ _ := true
  keyCompare_equivalence := ⟨beq_self_eq_true, BEq.symm, BEq.trans⟩
  hash_eq_of_keyCompare a b h := by rw [beq_iff_eq.mp h]

/-- A fifth key starts a rehash, in the middle of which one key is found and another deleted. -/
theorem dict_run_refines_map_rehash :
    ∃ d : Dict ℕ ℕ, CallMachine.run (dictStep natDictFunc) dictNew
      [.add 1 10, .add 2 20, .addRaw 3, .add 4 40, .add 5 50, .find 1, .deleteKey 2, .rehash 1]
      = some (d, [.status .ok, .status .ok, .raw true none, .status .ok, .status .ok,
          .entry (some ⟨1, some 10⟩), .status .ok, .done]) := by
  obtain ⟨d, hd, -⟩ := dict_run_refines_map natDictFunc
    [.add 1 10, .add 2 20, .addRaw 3, .add 4 40, .add 5 50, .find 1, .deleteKey 2, .rehash 1]
    _ _ rfl
  exact ⟨d, hd⟩

end LatteC
