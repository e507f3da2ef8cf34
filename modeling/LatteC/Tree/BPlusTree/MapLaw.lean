import LatteC.Tree.BPlusTree.Insert
import Mathlib.Order.Nat

/-!
# When the B+ tree is a map

`b_plus_tree_find` after a sequence of `b_plus_tree_insert_or_update` calls. With an even order, or as
long as all keys fit into one leaf, it returns the last value stored. With an odd order the first
leaf that splits strands a key: from then on that key is either not found or stored twice, whatever
calls follow, because splitting and inserting only add to the sequence of keys and separators.
-/

namespace LatteC

open LeafSeq SortedAssoc

variable {K V : Type} [LinearOrder K]

/-- A sequence of `b_plus_tree_insert_or_update` calls on a new tree. -/
def bPlusTreeStoreAll (order : ℕ) (calls : List (K × V)) : Option (BPlusTree K V) :=
  calls.foldlM (fun t c ↦ bPlusTreeInsertOrUpdate t c.1 c.2) (bPlusTreeNew order)

/-! ## Calls -/

section Step

variable {order : ℕ} {calls : List (K × V)} {t t' : BPlusTree K V} {s s' : Flat K V} {key : K}
  {data : V}

/-- A store only adds to the keys and separators, and keeps them in order. -/
theorem BPlusTreeStored.sublist (h : BPlusTreeStored t s key data t' s') :
    (marks s.toks).Sublist (marks s'.toks) := by
  obtain ⟨P, Q, l, X, Y, hsought, ⟨X', v, rfl, rfl⟩ | ⟨-, hgrown⟩⟩ := h.change
  · rw [hsought.marks_eq]
  · exact hgrown.grow.sublist

theorem BPlusTreeStored.weak (h : BPlusTreeStored t s key data t' s') (hw : Weak s.toks) :
    Weak s'.toks := by
  obtain ⟨P, Q, l, X, Y, hsought, ⟨X', v, rfl, rfl⟩ | ⟨-, hgrown⟩⟩ := h.change
  · rw [Weak, hsought.marks_eq]
    exact hw
  · exact hgrown.grow.weak hw

/-- The tree is what a map would be. -/
structure StoreInv (order : ℕ) (calls : List (K × V)) (t : BPlusTree K V) (s : Flat K V) :
    Prop where
  order_eq : t.order = order
  reads : t.Reads s
  root : calls ≠ [] → t.root ≠ none
  strict : Strict (order % 2 = 1) s.toks
  sep_mem : ∀ x, .sep x ∈ marks s.toks → .key x ∈ marks s.toks
  entries_eq : entries s.toks = putAll calls

theorem storeInv_nil (order : ℕ) :
    StoreInv order ([] : List (K × V)) (bPlusTreeNew order) ⟨[.leaf ⟨0, [], none⟩], 1⟩ where
  order_eq := rfl
  reads := reads_bPlusTreeNew order
  root h := absurd rfl h
  strict := List.Pairwise.nil
  sep_mem x hx := by simp at hx
  entries_eq := rfl

/-- Storing under a key that a search would not miss. -/
theorem StoreInv.step (hord : 2 ≤ order) (hinv : StoreInv order calls t s)
    (hf : Findable key s.toks) (h : BPlusTreeStored t s key data t' s') :
    StoreInv order (calls ++ [(key, data)]) t' s' := by
  have horder := hinv.order_eq
  obtain ⟨P, Q, l, X, Y, hsought, ⟨X', v, rfl, rfl⟩ | ⟨hlast, hgrown⟩⟩ := h.change
  · refine ⟨h.order.trans horder, h.reads, fun _ ↦ h.root, ?_, ?_, ?_⟩
    · rw [Strict, hsought.marks_eq]
      exact hinv.strict
    · rw [hsought.marks_eq]
      exact hinv.sep_mem
    · rw [hsought.put_eq hinv.strict, hinv.entries_eq, putAll_concat]
  · have hkey := hsought.key_not_mem hinv.strict hf hlast
    have hgrow := hgrown.grow
    rw [horder] at hgrow
    refine ⟨h.order.trans horder, h.reads, fun _ ↦ h.root,
      hgrow.strict hord hinv.strict hkey (fun _ ↦ hinv.sep_mem) ?_, hgrow.sep_mem hinv.sep_mem, ?_⟩
    · rintro - (htie | hmem)
      · exact hkey (key_mem_of_bPlusTreeTie (horder ▸ hord) hinv.reads hinv.sep_mem htie)
      · exact hkey hmem
    · rw [hgrow.entries_eq hinv.strict.weak hkey, hinv.entries_eq, putAll_concat]

end Step

/-- The last value stored under each key is what is found, and no key is stored twice. -/
def BPlusTree.IsMapOf (t : BPlusTree K V) (calls : List (K × V)) : Prop :=
  (∀ k, bPlusTreeFind t k = some (lastStored k calls)) ∧ (t.pairs.map Prod.fst).Nodup

theorem StoreInv.isMapOf {order : ℕ} {calls : List (K × V)} {t : BPlusTree K V} {s : Flat K V}
    (hinv : StoreInv order calls t s) (hne : calls ≠ []) (hf : ∀ k, Findable k s.toks) :
    t.IsMapOf calls := by
  refine ⟨fun k ↦ ?_, ?_⟩
  · rw [bPlusTreeFind_eq hinv.reads (hinv.root hne) hinv.strict (hf k), hinv.entries_eq,
      get_putAll]
  · rw [hinv.reads.pairs_eq, hinv.entries_eq]
    exact nodup_keys (sorted_putAll calls)

/-- After one more call. -/
theorem bPlusTreeStoreAll_concat {order : ℕ} {calls : List (K × V)} {t t' : BPlusTree K V}
    {key : K} {data : V} (h : bPlusTreeStoreAll order calls = some t)
    (h' : bPlusTreeInsertOrUpdate t key data = some t') :
    bPlusTreeStoreAll order (calls ++ [(key, data)]) = some t' := by
  rw [bPlusTreeStoreAll] at h
  rw [bPlusTreeStoreAll, List.foldlM_append, h]
  simpa using h'

/-! ## Even orders -/

theorem exists_storeInv_of_even {order : ℕ} (hord : 2 ≤ order) (heven : order % 2 = 0)
    (calls : List (K × V)) :
    ∃ t s, bPlusTreeStoreAll order calls = some t ∧ StoreInv order calls t s := by
  induction calls using List.reverseRecOn with
  | nil => exact ⟨_, _, rfl, storeInv_nil order⟩
  | append_singleton calls c ih =>
    obtain ⟨t, s, hrun, hinv⟩ := ih
    obtain ⟨t', s', hstored⟩ := bPlusTreeInsertOrUpdate_spec (hinv.order_eq ▸ hord) hinv.reads
      hinv.strict.weak c.1 c.2
    have hstrict : Strict false s.toks := by
      have := hinv.strict
      rwa [heven] at this
    exact ⟨t', s', bPlusTreeStoreAll_concat hrun hstored.run,
      hinv.step hord (hstrict.findable c.1) hstored⟩

/-! ## Odd orders -/

/-- Some key that was stored is stranded. -/
structure StrandedInv (order : ℕ) (calls : List (K × V)) (t : BPlusTree K V) (s : Flat K V) :
    Prop where
  order_eq : t.order = order
  reads : t.Reads s
  root : t.root ≠ none
  weak : Weak s.toks
  lt_card : order < (calls.map Prod.fst).toFinset.card
  stranded : ∃ b ∈ calls.map Prod.fst, Stranded b s.toks

/-- All keys are in one leaf. -/
def SingleInv (order : ℕ) (calls : List (K × V)) (t : BPlusTree K V) (s : Flat K V) : Prop :=
  StoreInv order calls t s ∧ ∃ l, s.toks = [.leaf l] ∧ l.entries.length ≤ order

section Odd

variable {order : ℕ} {calls : List (K × V)} {t t' : BPlusTree K V} {s s' : Flat K V} {key : K}
  {data : V}

/-- A stranded key stays stranded. -/
theorem StrandedInv.step (hinv : StrandedInv order calls t s)
    (h : BPlusTreeStored t s key data t' s') :
    StrandedInv order (calls ++ [(key, data)]) t' s' := by
  obtain ⟨b, hb, hstranded⟩ := hinv.stranded
  refine ⟨h.order.trans hinv.order_eq, h.reads, h.root, h.weak hinv.weak, ?_, b, ?_,
    hstranded.trans h.sublist⟩
  · refine lt_of_lt_of_le hinv.lt_card (Finset.card_le_card fun k hk ↦ ?_)
    rw [List.mem_toFinset] at hk ⊢
    rw [List.map_append]
    exact List.mem_append_left _ hk
  · rw [List.map_append]
    exact List.mem_append_left _ hb

theorem SingleInv.step (hord : 2 ≤ order) (hodd : order % 2 = 1)
    (hinv : SingleInv order calls t s) (h : BPlusTreeStored t s key data t' s') :
    SingleInv order (calls ++ [(key, data)]) t' s' ∨
      StrandedInv order (calls ++ [(key, data)]) t' s' := by
  obtain ⟨hstore, l, hl, hlen⟩ := hinv
  have hstore' := hstore.step hord (hl ▸ findable_singleton key l) h
  obtain ⟨P, Q, l', X, Y, hsought, ⟨X', v, rfl, rfl⟩ | ⟨hlast, hgrown⟩⟩ := h.change
  · left
    have htoks := hsought.toks
    rw [hl] at htoks
    obtain ⟨rfl, hl', rfl⟩ : P = [] ∧ l' = l ∧ Q = [] := by
      simpa [List.append_eq_singleton_iff] using htoks.symm
    refine ⟨hstore', _, rfl, ?_⟩
    rw [← hl', hsought.entries] at hlen
    simpa using hlen
  · have hgrow := hgrown.grow
    rw [hstore.order_eq] at hgrow
    rcases hgrow.singleton hodd hl with hsingle | ⟨hfull, b, hb⟩
    · exact Or.inl ⟨hstore', hsingle⟩
    · right
      refine ⟨hstore'.order_eq, hstore'.reads, h.root, hstore'.strict.weak, ?_, b, ?_, hb⟩
      · have hcount := hgrow.length_entries
        rw [hl, entries_cons_leaf, entries_nil, List.append_nil, hfull] at hcount
        rw [← length_putAll, ← hstore'.entries_eq, hcount]
        exact Nat.lt_succ_self order
      · rw [← mem_keys_putAll, ← hstore'.entries_eq, List.mem_map]
        exact key_mem_marks.mp (hb.mem (by simp))

/-- A tree with a stranded key is no map. -/
theorem StrandedInv.not_isMapOf (hinv : StrandedInv order calls t s) : ¬t.IsMapOf calls := by
  rintro ⟨hfind, hnodup⟩
  obtain ⟨b, hb, hstranded⟩ := hinv.stranded
  have hb' : lastStored b calls ≠ none := by
    obtain ⟨c, hc, rfl⟩ := List.mem_map.mp hb
    have hmem : c ∈ calls.filter fun c' ↦ c'.1 = c.1 := List.mem_filter.mpr ⟨hc, by simp⟩
    rw [lastStored, Ne, Option.map_eq_none_iff, List.getLast?_eq_none_iff]
    exact List.ne_nil_of_mem hmem
  obtain ⟨P, Q, l, X, Y, hsought, ⟨hnone, -⟩ | ⟨X', v, rfl, -⟩⟩ :=
    bPlusTreeFind_spec hinv.reads hinv.root hinv.weak b
  · exact hb' (Option.some.inj ((hfind b).symm.trans hnone))
  · rw [hinv.reads.pairs_eq] at hnodup
    exact hstranded.not_nodup hsought hnodup

end Odd

theorem exists_inv_of_odd {order : ℕ} (hord : 2 ≤ order) (hodd : order % 2 = 1)
    (calls : List (K × V)) :
    ∃ t s, bPlusTreeStoreAll order calls = some t ∧
      (SingleInv order calls t s ∨ StrandedInv order calls t s) := by
  induction calls using List.reverseRecOn with
  | nil => exact ⟨_, _, rfl, Or.inl ⟨storeInv_nil order, _, rfl, by simp⟩⟩
  | append_singleton calls c ih =>
    obtain ⟨t, s, hrun, hinv⟩ := ih
    have hcommon : t.order = order ∧ t.Reads s ∧ Weak s.toks := by
      rcases hinv with hinv | hinv
      · exact ⟨hinv.1.order_eq, hinv.1.reads, hinv.1.strict.weak⟩
      · exact ⟨hinv.order_eq, hinv.reads, hinv.weak⟩
    obtain ⟨horder, hreads, hw⟩ := hcommon
    obtain ⟨t', s', hstored⟩ := bPlusTreeInsertOrUpdate_spec (horder ▸ hord) hreads hw c.1 c.2
    refine ⟨t', s', bPlusTreeStoreAll_concat hrun hstored.run, ?_⟩
    rcases hinv with hinv | hinv
    · exact hinv.step hord hodd hstored
    · exact Or.inr (hinv.step hstored)

/-! ## The map law -/

/-- **When the map law holds.** Every sequence of calls succeeds. The resulting tree is the map that
the calls describe if and only if the order is even or all keys fit into one leaf. -/
theorem bPlusTreeStoreAll_isMapOf_iff {order : ℕ} (hord : 2 ≤ order) {calls : List (K × V)}
    (hne : calls ≠ []) :
    ∃ t, bPlusTreeStoreAll order calls = some t ∧
      (t.IsMapOf calls ↔ order % 2 = 0 ∨ (calls.map Prod.fst).toFinset.card ≤ order) := by
  rcases Nat.mod_two_eq_zero_or_one order with heven | hodd
  · obtain ⟨t, s, hrun, hinv⟩ := exists_storeInv_of_even hord heven calls
    have hstrict : Strict false s.toks := by
      have := hinv.strict
      rwa [heven] at this
    exact ⟨t, hrun, fun _ ↦ Or.inl heven, fun _ ↦ hinv.isMapOf hne hstrict.findable⟩
  · obtain ⟨t, s, hrun, hinv | hinv⟩ := exists_inv_of_odd hord hodd calls
    · obtain ⟨hstore, l, hl, hlen⟩ := hinv
      refine ⟨t, hrun, fun _ ↦ Or.inr ?_, fun _ ↦ hstore.isMapOf hne fun k ↦ ?_⟩
      · rw [← length_putAll, ← hstore.entries_eq, hl]
        simpa using hlen
      · rw [hl]
        exact findable_singleton k l
    · refine ⟨t, hrun, fun hmap ↦ absurd hmap hinv.not_isMapOf, fun hcond ↦ ?_⟩
      have hcard := hinv.lt_card
      omega

/-- Order 4, and one key more than a leaf holds. -/
theorem bPlusTreeStoreAll_isMapOf_four :
    ∃ t, bPlusTreeStoreAll 4 [(1, 10), (2, 20), (3, 30), (4, 40), (5, 50)] = some t ∧
      t.IsMapOf [(1, 10), (2, 20), (3, 30), (4, 40), (5, 50)] := by
  obtain ⟨t, hrun, hiff⟩ := bPlusTreeStoreAll_isMapOf_iff (show 2 ≤ 4 by decide)
    (show [(1, 10), (2, 20), (3, 30), (4, 40), (5, 50)] ≠ [] by decide)
  exact ⟨t, hrun, hiff.mpr (Or.inl rfl)⟩

/-- Order 3 loses the second of four keys. -/
theorem bPlusTreeStoreAll_not_isMapOf_three :
    ∃ t, bPlusTreeStoreAll 3 [(1, 10), (2, 20), (3, 30), (4, 40)] = some t ∧
      bPlusTreeFind t 2 = some none ∧
      lastStored 2 [(1, 10), (2, 20), (3, 30), (4, 40)] = some 20 ∧
      ¬t.IsMapOf [(1, 10), (2, 20), (3, 30), (4, 40)] := by
  have hlost : (bPlusTreeStoreAll 3 [(1, 10), (2, 20), (3, 30), (4, 40)]).bind
      (fun t ↦ bPlusTreeFind t 2) = some none := by decide
  obtain ⟨t, hrun, hfind⟩ := Option.bind_eq_some_iff.mp hlost
  refine ⟨t, hrun, hfind, rfl, fun hmap ↦ ?_⟩
  have hstored := hmap.1 2
  rw [hfind] at hstored
  exact absurd hstored (by decide)

end LatteC
