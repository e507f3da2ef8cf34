import LatteC.Tree.BPlusTree.Remove

/-!
# Storing into a B+ tree and removing from it

Sequences of `b_plus_tree_insert_or_update` and `b_plus_tree_remove` calls. `BPlusSafe` is a
condition on the tree before a call. It leaves out four situations in which the source goes wrong:

* a leaf splits and the order is odd, which strands a key (see `MapLaw`);
* the key to insert is the middle key of an internal node that splits. That takes a separator whose
  key has been removed, because otherwise the key would have been found. The key goes to the left of
  the separator, a search for it to the right;
* the two branches of `b_plus_tree_remove` that `bPlusRemoveSafe` is about.

While all calls are safe, the leaves hold what a map would hold.
-/

namespace LatteC

open SlotArray LeafSeq SortedAssoc CallMachine

variable {K V : Type} [LinearOrder K]

/-! ## One removal -/

section Remove

variable {t : BPlusTree K V} {s : Flat K V}

/-- The condition for a removal: the tree is not empty, and neither wrong branch is taken. -/
def bPlusTreeRemoveSafe (t : BPlusTree K V) (key : K) : Bool :=
  match t.root with
  | none => false
  | some root => bPlusRemoveSafe t.order key root.height root

/-- What `b_plus_tree_remove` returns: nothing has changed, or one entry is gone. -/
inductive BPlusTreeShrunk (t : BPlusTree K V) (s : Flat K V) (key : K) :
    Option (BPlusTree K V × Bool) → Prop
  | notFound : .key key ∉ marks s.toks → BPlusTreeShrunk t s key (some (t, false))
  | empty (v : V) : entries s.toks = [(key, v)] →
      BPlusTreeShrunk t s key (some ({ t with root := none }, true))
  | removed (v : V) (root : BPlusNode K V) (h : ℕ) (ts' : List (Tok K V)) :
      root.Shape t.order h ts' → Shrink key v s.toks ts' →
      BPlusTreeShrunk t s key (some ({ t with root := some root }, true))

/-- **Removal, on the sequence of leaves.** -/
theorem bPlusTreeRemove_spec (hord : 2 ≤ t.order) (hs : t.Reads s) (hst : Strict false s.toks)
    (hfull : t.root ≠ none → ∀ l ∈ leaves s.toks, l.entries ≠ []) {key : K}
    (hsafe : bPlusTreeRemoveSafe t key = true) :
    BPlusTreeShrunk t s key (bPlusTreeRemove t key) := by
  cases hroot : t.root with
  | none => simp [bPlusTreeRemoveSafe, hroot] at hsafe
  | some root =>
    rw [BPlusTree.Reads, hroot] at hs
    obtain ⟨⟨h, hshape⟩, -⟩ := hs
    have hheight := hshape.height_eq
    replace hfull := hfull (by simp [hroot])
    simp only [bPlusTreeRemoveSafe, hroot, hheight] at hsafe
    obtain ⟨toks, fresh⟩ := s
    simp only at hshape hst hfull ⊢
    cases h with
    | zero =>
      cases root with
      | inner slots n children => exact hshape.elim
      | leaf id slots n next =>
        obtain ⟨es, hslots, hn, rfl⟩ := hshape
        rcases exists_entry_or es key with hes | ⟨X, v, Y, rfl, hX⟩
        · have hnone := bPlusTreeLeafNodeRemove_eq_none hslots hes hn
          simp only [bPlusTreeRemove, hroot, Option.bind_some, hnone, Option.map_some]
          refine .notFound ?_
          rw [key_mem_marks]
          rintro ⟨e, he, rfl⟩
          exact hes e (by simpa using he) rfl
        · obtain ⟨slots', hremove, hslots'⟩ := bPlusTreeLeafNodeRemove_spec hslots hX hn
          simp only [bPlusTreeRemove, hroot, Option.bind_some, hremove, Option.map_some]
          split_ifs with hempty
          · obtain ⟨rfl, rfl⟩ := List.append_eq_nil_iff.mp (List.length_eq_zero_iff.mp hempty)
            exact .empty v (by simp)
          · exact .removed v _ 0 _ ⟨X ++ Y, hslots'.of_append, rfl, rfl⟩
              (.entry [] [] _ X Y rfl (List.ne_nil_of_length_pos (Nat.pos_of_ne_zero hempty)))
    | succ h =>
      cases root with
      | leaf id slots n next => exact hshape.elim
      | inner slots n children =>
        have hok := bPlusTreeRemoveNode_spec hord key hshape hst.weak hfull hsafe
        simp only [bPlusTreeRemove, hroot, Option.bind_some, hheight]
        generalize bPlusTreeRemoveNode t.order key (h + 1) (.inner slots n children) = r at hok
        cases hok with
        | notFound P Q l hts hloc hl =>
          have hsorted : l.entries.Pairwise fun a b ↦ a.1 ≤ b.1 := by
            have hw := hst.weak
            rw [Weak, hts, marks_append, marks_cons_leaf, List.pairwise_append,
              List.pairwise_append] at hw
            have := hw.2.1.1
            rw [keyMarks, List.pairwise_map] at this
            exact this
          obtain ⟨X, Y, hXY, hX, hY⟩ := exists_cut key hsorted
          have hsought : Sought key toks P Q l X Y := ⟨hts, hXY, hloc, hX, hY⟩
          refine .notFound (hsought.key_not_mem hst (hst.findable key) fun x hx ↦ ?_)
          exact (hl x (hXY ▸ List.mem_append_left _ (List.mem_of_getLast? hx))).symm
        | gone l v hts hl => exact .empty v (by simp [hts, hl])
        | kept v node' ts' hshape' hshrink => exact .removed v _ _ _ hshape' hshrink
        | dropped v slots' n' children' ts' hshape' hshrink =>
          simp only [Option.bind_some]
          split_ifs with hn'
          · -- the root has a single child left, which becomes the root
            subst hn'
            obtain ⟨ss, kids, hslots, hss, hchildren, hlen, hkids, rfl⟩ := hshape'
            obtain rfl := List.length_eq_zero_iff.mp hss
            obtain ⟨d, rfl⟩ := List.length_eq_one_iff.mp hlen
            have hread : read children' 0 = some d.1 := hchildren.read_of_getElem? rfl
            rw [hread, Option.map_some]
            refine .removed v d.1 h _ (hkids d (by simp)) ?_
            simpa [weave, weaveR] using hshrink
          · exact .removed v _ _ _ hshape' hshrink

end Remove

/-! ## Calls -/

/-- A call of the interface. -/
inductive BPlusCall (K V : Type) where
  | store (key : K) (data : V)
  | remove (key : K)

/-- One call, and what it returns. -/
def bPlusStep (t : BPlusTree K V) : BPlusCall K V → Option (BPlusTree K V × Option Bool)
  | .store key data => (bPlusTreeInsertOrUpdate t key data).map fun t ↦ (t, none)
  | .remove key => (bPlusTreeRemove t key).map fun r ↦ (r.1, some r.2)

/-- The same call on a map. -/
def bPlusMapStep (l : List (K × V)) : BPlusCall K V → Option (List (K × V) × Option Bool)
  | .store key data => some (put key data l, none)
  | .remove key => some (del key l, some (decide (key ∈ l.map Prod.fst)))

/-- The tree is a single leaf in which there is room for another key. -/
def bPlusTreeHasRoom (t : BPlusTree K V) : Bool :=
  match t.root with
  | none => true
  | some (.leaf _ _ n _) => n < t.order
  | some (.inner _ _ _) => false

/-- The situations in which a call does what it should. -/
def BPlusSafe (t : BPlusTree K V) : BPlusCall K V → Prop
  | .store key _ => key ∈ t.pairs.map Prod.fst ∨
    bPlusTreeTie t key = false ∧ (t.order % 2 = 0 ∨ bPlusTreeHasRoom t = true)
  | .remove key => bPlusTreeRemoveSafe t key = true

instance (t : BPlusTree K V) : ∀ call : BPlusCall K V, Decidable (BPlusSafe t call)
  | .store key _ => inferInstanceAs (Decidable (key ∈ t.pairs.map Prod.fst ∨
      bPlusTreeTie t key = false ∧ (t.order % 2 = 0 ∨ bPlusTreeHasRoom t = true)))
  | .remove key => inferInstanceAs (Decidable (bPlusTreeRemoveSafe t key = true))

/-- The tree holds the entries `l`. With an odd order it is a single leaf. -/
structure BPlusMapInv (order : ℕ) (l : List (K × V)) (t : BPlusTree K V) (s : Flat K V) :
    Prop where
  order_eq : t.order = order
  reads : t.Reads s
  strict : Strict false s.toks
  full : t.root ≠ none → ∀ l ∈ leaves s.toks, l.entries ≠ []
  single : order % 2 = 1 → ∃ l, s.toks = [.leaf l]
  entries_eq : entries s.toks = l

theorem bPlusMapInv_nil (order : ℕ) :
    BPlusMapInv order ([] : List (K × V)) (bPlusTreeNew order) ⟨[.leaf ⟨0, [], none⟩], 1⟩ where
  order_eq := rfl
  reads := reads_bPlusTreeNew order
  strict := List.Pairwise.nil
  full h := absurd rfl h
  single _ := ⟨_, rfl⟩
  entries_eq := rfl

namespace BPlusMapInv

variable {order : ℕ} {l : List (K × V)} {t t' : BPlusTree K V} {s s' : Flat K V} {key : K} {data : V}

theorem pairs_eq (hinv : BPlusMapInv order l t s) : t.pairs = l :=
  hinv.reads.pairs_eq.trans hinv.entries_eq

theorem sorted (hinv : BPlusMapInv order l t s) : Sorted l :=
  hinv.entries_eq ▸ hinv.strict.sorted

theorem key_mem (hinv : BPlusMapInv order l t s) :
    .key key ∈ marks s.toks ↔ key ∈ l.map Prod.fst := by
  rw [key_mem_marks, hinv.entries_eq, List.mem_map]

theorem packed (hinv : BPlusMapInv order l t s) : Packed s.toks := by
  cases hroot : t.root with
  | none =>
    have hreads := hinv.reads
    rw [BPlusTree.Reads, hroot] at hreads
    intro l' hl' _
    rw [hreads] at hl' ⊢
    obtain rfl : l' = _ := by simpa using hl'
    rfl
  | some root => exact fun l' hl' hnil ↦ absurd hnil (hinv.full (by simp [hroot]) l' hl')

/-- A single leaf with room. -/
theorem length_lt_of_hasRoom (hinv : BPlusMapInv order l t s) (hord : 2 ≤ order)
    (hroom : bPlusTreeHasRoom t = true) {l' : Leaf K V} (hl' : s.toks = [.leaf l']) :
    l'.entries.length < order := by
  have hreads := hinv.reads
  cases hroot : t.root with
  | none =>
    rw [BPlusTree.Reads, hroot] at hreads
    rw [hreads] at hl'
    obtain rfl : _ = l' := by simpa using hl'
    simpa using by omega
  | some root =>
    rw [BPlusTree.Reads, hroot] at hreads
    obtain ⟨⟨h, hshape⟩, -⟩ := hreads
    simp only [bPlusTreeHasRoom, hroot, hinv.order_eq] at hroom
    cases root with
    | inner slots n children => simp at hroom
    | leaf id slots n next =>
      cases h with
      | succ h => exact hshape.elim
      | zero =>
        obtain ⟨es, -, rfl, hts⟩ := hshape
        rw [hts] at hl'
        obtain rfl : _ = l' := by simpa using hl'
        simpa using hroom

/-- **A safe store.** -/
theorem store (hord : 2 ≤ order) (hinv : BPlusMapInv order l t s)
    (hsafe : BPlusSafe t (.store key data)) (h : BPlusTreeStored t s key data t' s') :
    BPlusMapInv order (put key data l) t' s' := by
  have horder := hinv.order_eq
  obtain ⟨P, Q, l', X, Y, hsought, ⟨X', v, rfl, rfl⟩ | ⟨hlast, hgrown⟩⟩ := h.change
  · -- one value is overwritten
    refine ⟨h.order.trans horder, h.reads, ?_, fun _ ↦ ?_, fun hodd ↦ ?_, ?_⟩
    · rw [Strict, hsought.marks_eq]
      exact hinv.strict
    · have hroot : t.root ≠ none := fun hroot ↦ by
        have hent := hinv.reads.pairs_eq
        rw [hsought.entries_eq_found] at hent
        simp [BPlusTree.pairs, hroot] at hent
      have hfull := hinv.full hroot
      rw [hsought.toks] at hfull
      simp only [leaves_append, leaves_cons_leaf, List.forall_mem_append,
        List.forall_mem_cons] at hfull ⊢
      exact ⟨hfull.1, List.append_ne_nil_of_right_ne_nil _ (List.cons_ne_nil _ _), hfull.2.2⟩
    · obtain ⟨l₁, hl₁⟩ := hinv.single hodd
      have htoks := hsought.toks
      rw [hl₁] at htoks
      obtain ⟨rfl, -, rfl⟩ : P = [] ∧ l' = l₁ ∧ Q = [] := by
        simpa [List.append_eq_singleton_iff] using htoks.symm
      exact ⟨_, rfl⟩
    · rw [hsought.put_eq hinv.strict, hinv.entries_eq]
  · -- a new key
    have hkey := hsought.key_not_mem hinv.strict (hinv.strict.findable key) hlast
    have hgrow := hgrown.grow
    rw [horder] at hgrow
    obtain ⟨htie, hroom⟩ : bPlusTreeTie t key = false ∧ (order % 2 = 0 ∨ bPlusTreeHasRoom t = true) := by
      rcases hsafe with hmem | hsafe
      · rw [hinv.pairs_eq, ← hinv.key_mem] at hmem
        exact absurd hmem hkey
      · rwa [horder] at hsafe
    have hnt : ¬(bPlusTreeTie t key = true ∨ .key key ∈ marks s.toks) := by simp [htie, hkey]
    have hent := hgrow.entries_eq hinv.strict.weak hkey
    rw [hinv.entries_eq] at hent
    have hfull := hgrow.ne_nil hord hinv.packed
    rcases Nat.mod_two_eq_zero_or_one order with heven | hodd
    · refine ⟨h.order.trans horder, h.reads, ?_, fun _ ↦ hfull, fun hodd ↦ by omega, hent⟩
      have := hgrow.strict hord (by rw [heven]; exact hinv.strict) hkey (by omega) fun _ ↦ hnt
      rwa [heven] at this
    · obtain ⟨l₁, hl₁⟩ := hinv.single hodd
      have hlt := hinv.length_lt_of_hasRoom hord (hroom.resolve_left (by omega)) hl₁
      rcases hgrow.singleton hodd hl₁ with ⟨l₂, hl₂, -⟩ | ⟨hfull', -⟩
      · refine ⟨h.order.trans horder, h.reads, ?_, fun _ ↦ hfull, fun _ ↦ ⟨l₂, hl₂⟩, hent⟩
        have hsorted := sorted_put (k := key) (v := data) hinv.sorted
        rw [← hent, hl₂] at hsorted
        rw [hl₂, strict_singleton]
        simpa using hsorted
      · omega

/-- **A safe removal.** -/
theorem remove (hord : 2 ≤ order) (hinv : BPlusMapInv order l t s)
    (hsafe : bPlusTreeRemoveSafe t key = true) :
    ∃ t' s', bPlusTreeRemove t key = some (t', decide (key ∈ l.map Prod.fst)) ∧
      BPlusMapInv order (del key l) t' s' := by
  have hshrunk := bPlusTreeRemove_spec (hinv.order_eq ▸ hord) hinv.reads hinv.strict hinv.full hsafe
  generalize bPlusTreeRemove t key = r at hshrunk
  cases hshrunk with
  | notFound hkey =>
    rw [hinv.key_mem] at hkey
    have hdel : del key l = l :=
      del_eq_self fun e he heq ↦ hkey (List.mem_map.mpr ⟨e, he, heq.symm⟩)
    exact ⟨t, s, by simp only [hkey, decide_false], hdel.symm ▸ hinv⟩
  | empty v hent =>
    rw [hinv.entries_eq] at hent
    subst hent
    refine ⟨{ t with root := none }, ⟨[.leaf ⟨t.env.fresh, [], none⟩], t.env.fresh + 1⟩, by simp,
      hinv.order_eq, rfl, List.Pairwise.nil, fun h ↦ absurd rfl h, fun _ ↦ ⟨_, rfl⟩, ?_⟩
    simp
  | removed v root h ts' hshape hshrink =>
    have hmem : key ∈ l.map Prod.fst := by
      obtain ⟨A, B, hent, -⟩ := hshrink.exists_entries
      rw [← hinv.entries_eq, hent]
      simp
    have hroot : t.root ≠ none := fun hroot ↦ by simp [bPlusTreeRemoveSafe, hroot] at hsafe
    refine ⟨{ t with root := some root }, ⟨ts', t.env.fresh⟩,
      by simp only [hmem, decide_true], hinv.order_eq, ⟨⟨h, hshape⟩, rfl⟩, hshrink.strict hinv.strict,
      fun _ ↦ hshrink.ne_nil (hinv.full hroot),
      fun hodd ↦ ?_, ?_⟩
    · obtain ⟨l₁, hl₁⟩ := hinv.single hodd
      rw [hl₁] at hshrink
      exact hshrink.singleton
    · rw [hshrink.entries_eq hinv.strict.sorted, hinv.entries_eq]

end BPlusMapInv

/-- Removing a key that is not there is safe. -/
theorem bPlusRemoveSafe_of_not_mem {order : ℕ} {key : K} : ∀ {h : ℕ} {node : BPlusNode K V}
    {ts : List (Tok K V)}, node.Shape order h ts → Weak ts → (∀ e ∈ entries ts, e.1 ≠ key) →
    bPlusRemoveSafe order key h node = true := by
  intro h
  induction h with
  | zero =>
    intro node ts hs _ _
    cases node with
    | leaf id slots n next => rfl
    | inner slots n children => exact hs.elim
  | succ h ih =>
    intro node ts hs hw hts
    cases node with
    | leaf id slots n next => exact hs.elim
    | inner slots n children =>
      obtain ⟨SA, SB, A, B, c, hcut, rfl⟩ := hs.exists_cut hw key
      have hshape := hcut.kids c (by simp)
      have hread := hcut.read_child
      have hsafe := ih hshape (weak_append₃ hw).2.1 fun e he ↦ hts e (by simp [bPlusCutToks, he])
      have hne : ∀ e ∈ entries c.2, e.1 ≠ key := fun e he ↦ hts e (by simp [bPlusCutToks, he])
      rw [bPlusRemoveSafe, hcut.descend]
      obtain ⟨child, tc⟩ := c
      simp only at hshape hread hsafe hne
      simp only [hread]
      cases child with
      | inner cslots cn cchildren =>
        have hpairs : ¬((BPlusNode.inner cslots cn cchildren).pairs h).map Prod.fst = [key] := by
          rw [hshape.pairs_eq]
          intro heq
          obtain ⟨e, he, hek⟩ := List.mem_map.mp (heq ▸ List.mem_singleton_self key)
          exact hne e he hek
        simp only [hsafe, hpairs, decide_false, Bool.and_false, Bool.not_false, Bool.and_self]
      | leaf id leaf leafKeys next =>
        cases h with
        | succ h => exact hshape.elim
        | zero =>
          obtain ⟨es, hes, rfl, rfl⟩ := hshape
          rcases List.eq_nil_or_concat es with rfl | ⟨es, e, rfl⟩
          · simp
          · rw [List.concat_eq_append] at hes hne ⊢
            have hlast : read leaf ((es ++ [e]).length - 1) = some e := by
              rw [List.length_append, List.length_singleton, Nat.add_sub_cancel]
              exact hes.read
            have hek := hne e (by simp)
            simp only [hlast, Option.any_some, hek, decide_false, Bool.and_false, Bool.not_false]

/-- **Removal, after safe calls.** In every run of which all calls are safe, the leaves hold what a map
holds after the same calls, and every call returns what it returns there. In every tree that is
reached and not empty, removing a key returns whether it was stored, and takes out its pair and nothing
else, unless that takes one of the two wrong branches; for a key that is not stored it never does. -/
theorem bPlusTree_run_remove {order : ℕ} (hord : 2 ≤ order) {calls : List (BPlusCall K V)}
    (hsafe : Guarded BPlusSafe bPlusStep (bPlusTreeNew order) calls) :
    ∃ t l replies, run bPlusStep (bPlusTreeNew order) calls = some (t, replies) ∧
      run bPlusMapStep [] calls = some (l, replies) ∧ t.pairs = l ∧
      ∀ key, t.root ≠ none → (key ∈ t.pairs.map Prod.fst → bPlusTreeRemoveSafe t key = true) →
        ∃ t', bPlusTreeRemove t key = some (t', decide (key ∈ t.pairs.map Prod.fst)) ∧
          t'.pairs = t.pairs.filter fun e ↦ e.1 ≠ key := by
  obtain ⟨l, replies, hspec⟩ := exists_run_of_total (bPlusMapStep (K := K) (V := V))
    (fun l call ↦ by cases call <;> exact ⟨_, rfl⟩) calls []
  have hstep : ∀ (t : BPlusTree K V) (l : List (K × V)) (call : BPlusCall K V) (l' : List (K × V))
      (reply : Option Bool), (∃ s, BPlusMapInv order l t s) → BPlusSafe t call →
      bPlusMapStep l call = some (l', reply) →
      ∃ t', bPlusStep t call = some (t', reply) ∧ ∃ s', BPlusMapInv order l' t' s' := by
    rintro t l call l' reply ⟨s, hinv⟩ hsafe hspec
    cases call with
    | store key data =>
      obtain ⟨rfl, rfl⟩ := Prod.mk.inj (Option.some.inj hspec)
      obtain ⟨t', s', hstored⟩ := bPlusTreeInsertOrUpdate_spec (hinv.order_eq ▸ hord) hinv.reads
        hinv.strict.weak key data
      exact ⟨t', by rw [bPlusStep, hstored.run, Option.map_some], s', hinv.store hord hsafe hstored⟩
    | remove key =>
      obtain ⟨rfl, rfl⟩ := Prod.mk.inj (Option.some.inj hspec)
      obtain ⟨t', s', hrun, hinv'⟩ := hinv.remove hord hsafe
      exact ⟨t', by rw [bPlusStep, hrun, Option.map_some], s', hinv'⟩
  obtain ⟨t, hrun, s, hinv⟩ :=
    run_refines_of_guarded hstep ⟨_, bPlusMapInv_nil order⟩ hsafe hspec
  refine ⟨t, l, replies, hrun, hspec, hinv.pairs_eq, fun key hroot hmem ↦ ?_⟩
  have hsafe' : bPlusTreeRemoveSafe t key = true := by
    by_cases hk : key ∈ t.pairs.map Prod.fst
    · exact hmem hk
    · obtain ⟨root, hroot⟩ := Option.ne_none_iff_exists'.mp hroot
      have hreads := hinv.reads
      rw [BPlusTree.Reads, hroot] at hreads
      obtain ⟨⟨h, hshape⟩, -⟩ := hreads
      simp only [bPlusTreeRemoveSafe, hroot, hshape.height_eq]
      refine bPlusRemoveSafe_of_not_mem hshape hinv.strict.weak fun e he heq ↦ hk ?_
      rw [hinv.reads.pairs_eq]
      exact List.mem_map.mpr ⟨e, he, heq⟩
  obtain ⟨t', s', hremove, hinv'⟩ := hinv.remove hord hsafe'
  refine ⟨t', by rw [hinv.pairs_eq, hremove], ?_⟩
  rw [hinv'.pairs_eq, hinv.pairs_eq, del_eq_filter hinv.sorted]

/-- Order 4: borrowing from the right, then merging to the left. -/
theorem bPlusTree_run_remove_four :
    ∃ t l replies, run bPlusStep (bPlusTreeNew 4)
        [.store 1 10, .store 2 20, .store 3 30, .store 4 40, .store 5 50, .remove 1, .remove 5] =
          some (t, replies) ∧
      run bPlusMapStep []
        [.store 1 10, .store 2 20, .store 3 30, .store 4 40, .store 5 50, .remove 1, .remove 5] =
          some (l, replies) ∧ t.pairs = l ∧
      ∀ key, t.root ≠ none → (key ∈ t.pairs.map Prod.fst → bPlusTreeRemoveSafe t key = true) →
        ∃ t', bPlusTreeRemove t key = some (t', decide (key ∈ t.pairs.map Prod.fst)) ∧
          t'.pairs = t.pairs.filter fun e ↦ e.1 ≠ key :=
  bPlusTree_run_remove (by decide) (by decide)

/-- Order 4: the leaf `[3, 4]` gives up its last key and borrows from `[0, 1, 2]`. The key that was
removed is there again, and 3 is lost. -/
theorem bPlusTreeRemove_four_resurrects :
    ∃ t t' replies, run bPlusStep (bPlusTreeNew 4) [.store 1 10, .store 2 20, .store 3 30,
        .store 4 40, .store 5 50, .store 0 0, .remove 5] = some (t, replies) ∧
      t.pairs = [(0, 0), (1, 10), (2, 20), (3, 30), (4, 40)] ∧
      bPlusTreeRemove t 4 = some (t', true) ∧ t'.pairs = [(0, 0), (1, 10), (2, 20), (4, 40)] ∧
      t'.pairs ≠ t.pairs.filter fun e ↦ e.1 ≠ 4 := by
  have hrun : (run bPlusStep (bPlusTreeNew 4) [.store 1 10, .store 2 20, .store 3 30, .store 4 40,
      .store 5 50, .store 0 0, .remove 5]).bind (fun r ↦ (bPlusTreeRemove r.1 4).map fun q ↦
        (r.1.pairs, q.1.pairs, q.2)) =
      some ([(0, 0), (1, 10), (2, 20), (3, 30), (4, 40)],
        [(0, 0), (1, 10), (2, 20), (4, 40)], true) := by decide
  obtain ⟨⟨t, replies⟩, ht, hq⟩ := Option.bind_eq_some_iff.mp hrun
  obtain ⟨⟨t', b⟩, ht', heq⟩ := Option.map_eq_some_iff.mp hq
  simp only [Prod.mk.injEq] at heq
  obtain ⟨hpairs, hpairs', rfl⟩ := heq
  refine ⟨t, t', replies, ht, hpairs, ht', hpairs', ?_⟩
  rw [hpairs, hpairs']
  decide

end LatteC
