import LatteC.Tree.BPlusTree.Insert

/-!
# Inserting distinct keys

`b_plus_tree_insert` does not look whether a key is there already. As long as the keys are pairwise
distinct, the tree keeps its shape for odd and even orders alike, and the iterator yields all pairs in
ascending order: it follows the chain of leaves, so a key that a search would miss is still met.
-/

namespace LatteC

open SlotArray LeafSeq SortedAssoc

variable {K V : Type}

/-! ## Shape -/

/-- The keys of the nodes below, those of internal nodes included. -/
def BPlusNode.keysBelow : (fuel : ℕ) → BPlusNode K V → List K
  | 0, node => (node.slots.take node.numKeys).reduceOption.map Prod.fst
  | _, .leaf _ slots n _ => (slots.take n).reduceOption.map Prod.fst
  | fuel + 1, .inner slots n children => (slots.take n).reduceOption.map Prod.fst ++
    (children.take (n + 1)).reduceOption.flatMap (keysBelow fuel)

/-- All leaves are `h` levels down, no node has more than `order` keys, keys ascend strictly, an
internal node has one more child than keys, and the keys below a child are between the keys on its
two sides. -/
def BPlusNode.WellFormed [LinearOrder K] (order : ℕ) : ℕ → BPlusNode K V → Prop
  | 0, .leaf _ slots n _ => n ≤ order ∧ ∃ es, Holds order slots es ∧ es.length = n ∧ Sorted es
  | h + 1, .inner slots n children => n ≤ order ∧ ∃ ss cs,
    Holds order slots ss ∧ ss.length = n ∧ Sorted ss ∧
    Holds (order + 1) children cs ∧ cs.length = n + 1 ∧ (∀ c ∈ cs, WellFormed order h c) ∧
    ∀ i s, ss[i]? = some s →
      (∀ c, cs[i]? = some c → ∀ k ∈ c.keysBelow h, k ≤ s.1) ∧
      ∀ c, cs[i + 1]? = some c → ∀ k ∈ c.keysBelow h, s.1 ≤ k
  | _, _ => False

/-- Every key below is among the marks. -/
theorem BPlusNode.Shape.exists_mark {order : ℕ} : ∀ {h : ℕ} {node : BPlusNode K V}
    {ts : List (Tok K V)}, node.Shape order h ts →
    ∀ k ∈ node.keysBelow h, ∃ m ∈ marks ts, m.val = k := by
  intro h
  induction h with
  | zero =>
    intro node ts hs k hk
    cases node with
    | inner slots n children => exact hs.elim
    | leaf id slots n next =>
      obtain ⟨es, hslots, rfl, rfl⟩ := hs
      simp only [BPlusNode.keysBelow, BPlusNode.slots, BPlusNode.numKeys, hslots.take,
        reduceOption_map_some, List.mem_map] at hk
      obtain ⟨e, he, rfl⟩ := hk
      exact ⟨.key e.1, key_mem_marks.mpr ⟨e, by simpa using he, rfl⟩, rfl⟩
  | succ h ih =>
    intro node ts hs k hk
    cases node with
    | leaf id slots n next => exact hs.elim
    | inner slots n children =>
      obtain ⟨ss, kids, hslots, rfl, hchildren, hlen, hkids, rfl⟩ := hs
      have htake := hchildren.take
      rw [List.length_map, hlen] at htake
      rw [BPlusNode.keysBelow, hslots.take, htake, reduceOption_map_some, reduceOption_map_some,
        List.mem_append] at hk
      rcases hk with hk | hk
      · exact ⟨.sep k, (sep_sublist_weave (by simpa using hlen)).mem (List.mem_map_of_mem hk), rfl⟩
      · obtain ⟨_, hmem, hk⟩ := List.mem_flatMap.mp hk
        obtain ⟨c, hc, rfl⟩ := List.mem_map.mp hmem
        obtain ⟨m, hm, hval⟩ := ih (hkids c hc) k hk
        exact ⟨m, (marks_sublist_weave (by simpa using hlen) (List.mem_map_of_mem hc)).mem hm, hval⟩

section WellFormed

variable [LinearOrder K]

private theorem sorted_of_sublist {odd : Bool} {ts : List (Tok K V)} {ss : List (K × V)}
    (hst : Strict odd ts) (hsub : (ss.map fun s ↦ Mark.sep s.1).Sublist (marks ts)) : Sorted ss := by
  have := hst.sublist hsub
  rw [List.pairwise_map] at this
  exact this

/-- What is on the two sides of a separator. -/
theorem le_sep_le {kids : List (List (Tok K V))} {ss : List K} {i : ℕ} {s : K}
    {c d : List (Tok K V)} (hlen : kids.length = ss.length + 1) (hw : Weak (weave kids ss))
    (hs : ss[i]? = some s) (hc : kids[i]? = some c) (hd : kids[i + 1]? = some d) :
    (∀ m ∈ marks c, m.val ≤ s) ∧ ∀ m ∈ marks d, s ≤ m.val := by
  obtain ⟨hi, rfl⟩ := List.getElem?_eq_some_iff.mp hs
  obtain ⟨hic, rfl⟩ := List.getElem?_eq_some_iff.mp hc
  obtain ⟨hid, rfl⟩ := List.getElem?_eq_some_iff.mp hd
  have hss : ss = ss.take i ++ ss[i] :: ss.drop (i + 1) := by
    rw [← List.drop_eq_getElem_cons hi, List.take_append_drop]
  have hkids : kids = kids.take i ++ kids[i] :: kids[i + 1] :: kids.drop (i + 2) := by
    rw [← List.drop_eq_getElem_cons hid, ← List.drop_eq_getElem_cons hic, List.take_append_drop]
  generalize ss[i] = s, kids[i] = c, kids[i + 1] = d at *
  rw [hss, hkids, weave_mid c (by simp only [List.length_take]; omega), weaveR, Weak,
    marks_append, marks_append, marks_cons_sep, List.pairwise_append] at hw
  obtain ⟨-, hright, hcross⟩ := hw
  refine ⟨fun m hm ↦ hcross m (List.mem_append_right _ hm) (.sep s) List.mem_cons_self, ?_⟩
  intro m hm
  rw [List.pairwise_cons, marks_append] at hright
  exact hright.1 m (List.mem_append_left _ hm)

/-- A strictly ordered sequence is that of a well-formed node. -/
theorem BPlusNode.Shape.wellFormed {odd : Bool} {order : ℕ} : ∀ {h : ℕ} {node : BPlusNode K V}
    {ts : List (Tok K V)}, node.Shape order h ts → Strict odd ts → node.WellFormed order h := by
  intro h
  induction h with
  | zero =>
    intro node ts hs hst
    have hle := hs.numKeys_le
    cases node with
    | inner slots n children => exact hs.elim
    | leaf id slots n next =>
      obtain ⟨es, hslots, hn, rfl⟩ := hs
      refine ⟨hle, es, hslots, hn, ?_⟩
      simpa using hst.sorted
  | succ h ih =>
    intro node ts hs hst
    have hle := hs.numKeys_le
    cases node with
    | leaf id slots n next => exact hs.elim
    | inner slots n children =>
      obtain ⟨ss, kids, hslots, rfl, hchildren, hlen, hkids, rfl⟩ := hs
      have hlen' : (kids.map Prod.snd).length = (ss.map Prod.fst).length + 1 := by simpa using hlen
      refine ⟨hle, ss, kids.map Prod.fst, hslots, rfl, ?_, hchildren, by simpa using hlen, ?_, ?_⟩
      · refine sorted_of_sublist hst ?_
        have := sep_sublist_weave hlen'
        rwa [List.map_map] at this
      · intro c hc
        obtain ⟨d, hd, rfl⟩ := List.mem_map.mp hc
        exact ih (hkids d hd) (hst.sublist (marks_sublist_weave hlen' (List.mem_map_of_mem hd)))
      · intro i s hs
        have hi : i < ss.length := (List.getElem?_eq_some_iff.mp hs).1
        have hkid : ∀ j (hj : j < kids.length), kids[j]? = some kids[j] :=
          fun j hj ↦ List.getElem?_eq_getElem hj
        have hi₀ := hkid i (by omega)
        have hi₁ := hkid (i + 1) (by omega)
        obtain ⟨hbelow, habove⟩ := le_sep_le hlen' hst.weak
          (i := i) (s := s.1) (c := kids[i].2) (d := kids[i + 1].2)
          (by rw [List.getElem?_map, hs]; rfl) (by rw [List.getElem?_map, hi₀]; rfl)
          (by rw [List.getElem?_map, hi₁]; rfl)
        refine ⟨fun c hc k hk ↦ ?_, fun c hc k hk ↦ ?_⟩
        · rw [List.getElem?_map, hi₀] at hc
          rw [← Option.some.inj hc] at hk
          obtain ⟨m, hm, rfl⟩ := (hkids _ (List.getElem_mem (by omega))).exists_mark k hk
          exact hbelow m hm
        · rw [List.getElem?_map, hi₁] at hc
          rw [← Option.some.inj hc] at hk
          obtain ⟨m, hm, rfl⟩ := (hkids _ (List.getElem_mem (by omega))).exists_mark k hk
          exact habove m hm

end WellFormed

/-! ## Iteration -/

section Iterate

variable {order : ℕ}

/-- There is a leftmost leaf, and that is where the iterator starts. -/
theorem bPlusLeftmost_spec : ∀ {h : ℕ} {node : BPlusNode K V} {ts : List (Tok K V)},
    node.Shape order h ts → ∃ l ls, leaves ts = l :: ls ∧ bPlusLeftmost h node = some l.id := by
  intro h
  induction h with
  | zero =>
    intro node ts hs
    cases node with
    | inner slots n children => exact hs.elim
    | leaf id slots n next =>
      obtain ⟨es, -, -, rfl⟩ := hs
      exact ⟨_, [], rfl, rfl⟩
  | succ h ih =>
    intro node ts hs
    cases node with
    | leaf id slots n next => exact hs.elim
    | inner slots n children =>
      obtain ⟨ss, kids, -, rfl, hchildren, hlen, hkids, rfl⟩ := hs
      obtain ⟨c, kids, rfl⟩ := List.exists_cons_of_length_eq_add_one hlen
      obtain ⟨l, ls, hl, hleft⟩ := ih (hkids c List.mem_cons_self)
      have hread : read children 0 = some c.1 := hchildren.read_of_getElem? rfl
      refine ⟨l, ls ++ (kids.map Prod.snd).flatMap leaves, ?_, ?_⟩
      · rw [leaves_weave (by simpa using hlen), List.map_cons, List.flatMap_cons, hl,
          List.cons_append]
      · rw [bPlusLeftmost, hread, Option.bind_some, hleft]

/-- No leaf has this identity. -/
theorem bPlusLeafAt_eq_none : ∀ {h : ℕ} {node : BPlusNode K V} {ts : List (Tok K V)} {id : ℕ},
    node.Shape order h ts → id ∉ (leaves ts).map Leaf.id → bPlusLeafAt id h node = none := by
  intro h
  induction h with
  | zero =>
    intro node ts id hs hid
    cases node with
    | inner slots n children => exact hs.elim
    | leaf id' slots n next =>
      obtain ⟨es, -, -, rfl⟩ := hs
      have hne : id' ≠ id := fun heq ↦ hid (by simp [heq])
      rw [bPlusLeafAt, if_neg hne]
  | succ h ih =>
    intro node ts id hs hid
    cases node with
    | leaf id' slots n next => exact hs.elim
    | inner slots n children =>
      obtain ⟨ss, kids, -, rfl, hchildren, hlen, hkids, rfl⟩ := hs
      have htake := hchildren.take
      rw [List.length_map, hlen] at htake
      rw [bPlusLeafAt, htake, List.map_map, List.findSome?_eq_none_iff]
      intro _ hmem
      obtain ⟨c, hc, rfl⟩ := List.mem_map.mp hmem
      refine ih (hkids c hc) fun hcid ↦ hid ?_
      obtain ⟨l, hl, hlid⟩ := List.mem_map.mp hcid
      rw [leaves_weave (by simpa using hlen)]
      exact List.mem_map.mpr
        ⟨l, List.mem_flatMap.mpr ⟨c.2, List.mem_map_of_mem hc, hl⟩, hlid⟩

/-- A pointer to a leaf leads to it. -/
theorem bPlusLeafAt_spec : ∀ {h : ℕ} {node : BPlusNode K V} {ts : List (Tok K V)} {l : Leaf K V},
    node.Shape order h ts → ((leaves ts).map Leaf.id).Nodup → l ∈ leaves ts →
    ∃ slots, bPlusLeafAt l.id h node = some (slots, l.entries.length, l.next) ∧
      Holds order slots l.entries := by
  intro h
  induction h with
  | zero =>
    intro node ts l hs _ hl
    cases node with
    | inner slots n children => exact hs.elim
    | leaf id slots n next =>
      obtain ⟨es, hslots, rfl, rfl⟩ := hs
      obtain rfl : l = ⟨id, es, next⟩ := by simpa using hl
      exact ⟨slots, by rw [bPlusLeafAt, if_pos rfl], hslots⟩
  | succ h ih =>
    intro node ts l hs hnodup hl
    cases node with
    | leaf id slots n next => exact hs.elim
    | inner slots n children =>
      obtain ⟨ss, kids, -, rfl, hchildren, hlen, hkids, rfl⟩ := hs
      rw [leaves_weave (by simpa using hlen)] at hl hnodup
      obtain ⟨_, hmem, hlc⟩ := List.mem_flatMap.mp hl
      obtain ⟨c, hc, rfl⟩ := List.mem_map.mp hmem
      obtain ⟨A, B, rfl⟩ := List.append_of_mem hc
      simp only [List.map_append, List.map_cons, List.flatMap_append, List.flatMap_cons] at hnodup
      obtain ⟨-, hnodup, hdisj⟩ := List.nodup_append.mp hnodup
      obtain ⟨slots', hat, hholds⟩ :=
        ih (hkids c hc) (List.nodup_append.mp hnodup).1 hlc
      refine ⟨slots', ?_, hholds⟩
      -- the subtrees to the left have no leaf of this identity
      have hleft : (A.map Prod.fst).findSome? (bPlusLeafAt l.id h) = none := by
        rw [List.findSome?_eq_none_iff]
        intro _ hmem
        obtain ⟨d, hd, rfl⟩ := List.mem_map.mp hmem
        refine bPlusLeafAt_eq_none (hkids d (by simp [hd])) fun hid ↦ ?_
        refine hdisj l.id ?_ l.id ?_ rfl
        · obtain ⟨l', hl', hlid⟩ := List.mem_map.mp hid
          exact List.mem_map.mpr
            ⟨l', List.mem_flatMap.mpr ⟨d.2, List.mem_map_of_mem hd, hl'⟩, hlid⟩
        · exact List.mem_append_left _ (List.mem_map_of_mem hlc)
      have htake := hchildren.take
      rw [List.length_map, hlen] at htake
      have hfind : ∀ cs : List (BPlusNode K V),
          (cs.map some).findSome? (fun c ↦ c.bind (bPlusLeafAt l.id h)) =
            cs.findSome? (bPlusLeafAt l.id h) := by
        intro cs
        rw [List.findSome?_map]
        rfl
      rw [bPlusLeafAt, htake, hfind, List.map_append, List.findSome?_append, hleft,
        Option.none_or, List.map_cons, List.findSome?_cons, hat]

/-- **The rest of an iteration.** From slot `i` of a leaf on, the iterator yields the rest of the leaf
and then all leaves behind it. -/
theorem bPlusTreeIteratorDrain_spec {t : BPlusTree K V} {root : BPlusNode K V} {h : ℕ}
    {ts : List (Tok K V)} (hroot : t.root = some root) (hshape : root.Shape t.order h ts)
    (hlinked : Linked (leaves ts) none) (hnodup : ((leaves ts).map Leaf.id).Nodup)
    (hfull : ∀ l ∈ leaves ts, l.entries ≠ []) :
    ∀ {fuel : ℕ} {before ls : List (Leaf K V)} {l : Leaf K V} {es rest : List (K × V)},
      leaves ts = before ++ l :: ls → l.entries = es ++ rest → rest ≠ [] →
      (rest ++ ls.flatMap Leaf.entries).length < fuel →
      bPlusTreeIteratorDrain t fuel ⟨some l.id, es.length⟩ =
        some (rest ++ ls.flatMap Leaf.entries) := by
  intro fuel
  induction fuel with
  | zero =>
    intro before ls l es rest _ _ _ hfuel
    exact absurd hfuel (Nat.not_lt_zero _)
  | succ fuel ih =>
    intro before ls l es rest hleaves hentries hrest hfuel
    obtain ⟨e, rest, rfl⟩ := List.exists_cons_of_ne_nil hrest
    obtain ⟨slots, hat, hholds⟩ := bPlusLeafAt_spec hshape hnodup
      (by rw [hleaves]; simp : l ∈ leaves ts)
    rw [hentries] at hholds
    have hread : read slots es.length = some e := hholds.read
    have hnext : bPlusTreeIteratorNext t ⟨some l.id, es.length⟩ =
        some (if rest = [] then ⟨l.next, 0⟩ else ⟨some l.id, es.length + 1⟩, e) := by
      have hlast : es.length + 1 = l.entries.length ↔ rest = [] := by
        rw [hentries, List.length_append, List.length_cons, ← List.length_eq_zero_iff]
        omega
      simp only [bPlusTreeIteratorNext, hroot, Option.bind_eq_bind, Option.bind_some,
        hshape.height_eq, hat, hread, hlast]
      split_ifs <;> rfl
    have hlinked' := hlinked
    rw [hleaves, linked_append] at hlinked'
    have hlink : l.next = firstId ls none := hlinked'.2.1
    rw [bPlusTreeIteratorDrain, if_pos (by rfl), hnext, Option.bind_some]
    have hlen : (rest ++ ls.flatMap Leaf.entries).length < fuel := by
      simpa using hfuel
    by_cases hnil : rest = []
    · subst hnil
      rw [if_pos rfl, hlink]
      cases ls with
      | nil =>
        obtain ⟨fuel, rfl⟩ := Nat.exists_eq_succ_of_ne_zero (Nat.ne_zero_of_lt hlen)
        rfl
      | cons l' ls =>
        have hsuffix : leaves ts = (before ++ [l]) ++ l' :: ls := by rw [hleaves]; simp
        have hstart := ih hsuffix (List.nil_append _).symm (hfull l' (by rw [hleaves]; simp))
          (by simpa using hlen)
        rw [List.length_nil] at hstart
        rw [firstId, hstart]
        simp
    · have hcut : l.entries = (es ++ [e]) ++ rest := by rw [hentries]; simp
      have hstep := ih hleaves hcut hnil hlen
      rw [List.length_append, List.length_singleton] at hstep
      rw [if_neg hnil, hstep]
      rfl

end Iterate

/-! ## Calls -/

/-- A sequence of `b_plus_tree_insert` calls on a new tree. -/
def bPlusTreeInsertAll [LinearOrder K] (order : ℕ) (calls : List (K × V)) :
    Option (BPlusTree K V) :=
  calls.foldlM (fun t c ↦ bPlusTreeInsert t c.1 c.2) (bPlusTreeNew order)

section Distinct

variable [LinearOrder K] {order : ℕ} {calls : List (K × V)} {t t' : BPlusTree K V}
  {s s' : Flat K V} {key : K} {data : V}

/-- What insertions of distinct keys have built. -/
structure InsertInv (order : ℕ) (calls : List (K × V)) (t : BPlusTree K V) (s : Flat K V) :
    Prop where
  order_eq : t.order = order
  reads : t.Reads s
  root : t.root = none ↔ calls = []
  splits : t.SplitsOk
  strict : Strict (order % 2 = 1) s.toks
  sep_mem : ∀ x, .sep x ∈ marks s.toks → .key x ∈ marks s.toks
  perm : (entries s.toks).Perm calls
  chained : Chained s
  packed : Packed s.toks

theorem insertInv_nil (order : ℕ) :
    InsertInv order ([] : List (K × V)) (bPlusTreeNew order) ⟨[.leaf ⟨0, [], none⟩], 1⟩ where
  order_eq := rfl
  reads := reads_bPlusTreeNew order
  root := by simp [bPlusTreeNew]
  splits p hp := absurd hp List.not_mem_nil
  strict := List.Pairwise.nil
  sep_mem x hx := by simp at hx
  perm := List.Perm.refl _
  chained := ⟨⟨rfl, trivial⟩, by simp, by simp⟩
  packed := by simp [Packed]

/-- Inserting a new key. -/
theorem InsertInv.step (hord : 2 ≤ order) (hinv : InsertInv order calls t s)
    (hnew : key ∉ calls.map Prod.fst) (h : BPlusTreeGrown t s key data t' s') :
    InsertInv order (calls ++ [(key, data)]) t' s' := by
  have horder := hinv.order_eq
  have hgrow := h.grow
  rw [horder] at hgrow
  have hkey : .key key ∉ marks s.toks := fun hmem ↦ hnew <| by
    obtain ⟨e, he, rfl⟩ := key_mem_marks.mp hmem
    exact List.mem_map_of_mem (hinv.perm.mem_iff.mp he)
  have hkey' : key ∉ (entries s.toks).map Prod.fst := fun hmem ↦ hkey <| by
    obtain ⟨e, he, heq⟩ := List.mem_map.mp hmem
    exact key_mem_marks.mpr ⟨e, he, heq⟩
  have htie : ¬(bPlusTreeTie t key = true ∨ .key key ∈ marks s.toks) := by
    rintro (htie | hmem)
    · exact hkey (key_mem_of_bPlusTreeTie (horder ▸ hord) hinv.reads hinv.sep_mem htie)
    · exact hkey hmem
  refine ⟨h.order.trans horder, h.reads, ?_, h.splits hinv.splits,
    hgrow.strict hord hinv.strict hkey (fun _ ↦ hinv.sep_mem) fun _ ↦ htie,
    hgrow.sep_mem hinv.sep_mem, ?_, hgrow.chained hinv.chained, fun l hl hnil ↦ ?_⟩
  · simp [h.root]
  · rw [hgrow.entries_eq hinv.strict.weak hkey]
    have hput : (put key data (entries s.toks)).Perm ((key, data) :: calls) :=
      (put_perm_of_not_mem hkey').trans (hinv.perm.cons _)
    exact hput.trans (List.perm_append_singleton _ _).symm
  · exact absurd hnil (hgrow.ne_nil hord hinv.packed l hl)

/-- Every sequence of insertions of distinct keys succeeds, and keeps the invariant. -/
theorem exists_insertInv (hord : 2 ≤ order) (calls : List (K × V))
    (hnodup : (calls.map Prod.fst).Nodup) :
    ∃ t s, bPlusTreeInsertAll order calls = some t ∧ InsertInv order calls t s := by
  induction calls using List.reverseRecOn with
  | nil => exact ⟨_, _, rfl, insertInv_nil order⟩
  | append_singleton calls c ih =>
    rw [List.map_append, List.map_singleton, List.nodup_append_comm, List.singleton_append,
      List.nodup_cons] at hnodup
    obtain ⟨t, s, hrun, hinv⟩ := ih hnodup.2
    obtain ⟨t', s', hgrown⟩ := bPlusTreeInsert_spec (hinv.order_eq ▸ hord) hinv.reads
      hinv.strict.weak c.1 c.2
    refine ⟨t', s', ?_, hinv.step hord hnodup.1 hgrown⟩
    rw [bPlusTreeInsertAll] at hrun
    rw [bPlusTreeInsertAll, List.foldlM_append, hrun]
    simpa using hgrown.run

end Distinct

/-- **The shape of the tree.** Distinct keys can be inserted in any order of arrival. No access is
outside an array, every split is of a full child of a node that is not full, and the tree is
well-formed. -/
theorem bPlusTreeInsertAll_wellFormed [LinearOrder K] {order : ℕ} (hord : 2 ≤ order)
    {calls : List (K × V)} (hnodup : (calls.map Prod.fst).Nodup) :
    ∃ t, bPlusTreeInsertAll order calls = some t ∧
      (∀ p ∈ t.env.splits, p.1 < order ∧ p.2 = order) ∧
      ∀ root, t.root = some root → ∃ h, root.WellFormed order h := by
  obtain ⟨t, s, hrun, hinv⟩ := exists_insertInv hord calls hnodup
  refine ⟨t, hrun, ?_, fun root hroot ↦ ?_⟩
  · have := hinv.splits
    rwa [BPlusTree.SplitsOk, hinv.order_eq] at this
  · have hreads := hinv.reads
    rw [BPlusTree.Reads, hroot, hinv.order_eq] at hreads
    obtain ⟨⟨h, hshape⟩, -⟩ := hreads
    exact ⟨h, hshape.wellFormed hinv.strict⟩

/-- Five keys in a tree of order 2, which makes three levels. -/
theorem bPlusTreeInsertAll_wellFormed_two :
    ∃ t, bPlusTreeInsertAll 2 [(3, 30), (1, 10), (2, 20), (5, 50), (4, 40)] = some t ∧
      (∀ p ∈ t.env.splits, p.1 < 2 ∧ p.2 = 2) ∧
      ∀ root, t.root = some root → ∃ h, root.WellFormed 2 h :=
  bPlusTreeInsertAll_wellFormed (by decide) (by decide)

/-- **Iteration.** After distinct keys have been inserted in any order of arrival, the iterator yields
every pair once, in ascending order, and ends. -/
theorem bPlusTreeInsertAll_iterate [LinearOrder K] {order : ℕ} (hord : 2 ≤ order)
    {calls : List (K × V)} (hnodup : (calls.map Prod.fst).Nodup) :
    ∃ t it out, bPlusTreeInsertAll order calls = some t ∧ bPlusTreeGetIterator t = some it ∧
      bPlusTreeIteratorDrain t (calls.length + 1) it = some out ∧
      out.Perm calls ∧ out.Pairwise fun a b ↦ a.1 < b.1 := by
  obtain ⟨t, s, hrun, hinv⟩ := exists_insertInv hord calls hnodup
  refine ⟨t, ?_⟩
  cases hroot : t.root with
  | none =>
    obtain rfl := hinv.root.mp hroot
    exact ⟨⟨none, 0⟩, [], hrun, by rw [bPlusTreeGetIterator, hroot], rfl, List.Perm.refl _,
      List.Pairwise.nil⟩
  | some root =>
    have hreads := hinv.reads
    rw [BPlusTree.Reads, hroot] at hreads
    obtain ⟨⟨h, hshape⟩, -⟩ := hreads
    obtain ⟨l, ls, hleaves, hleft⟩ := bPlusLeftmost_spec hshape
    have hcalls : calls ≠ [] := fun h ↦ by simp [hinv.root.mpr h] at hroot
    have hfull : ∀ l ∈ leaves s.toks, l.entries ≠ [] := by
      intro l hl hnil
      have hent : entries s.toks = [] := by simp [hinv.packed l hl hnil, hnil]
      have := hinv.perm
      rw [hent] at this
      exact hcalls this.nil_eq.symm
    have hentries : entries s.toks = l.entries ++ ls.flatMap Leaf.entries := by
      rw [entries, hleaves, List.flatMap_cons]
    have hfuel : (l.entries ++ ls.flatMap Leaf.entries).length < calls.length + 1 := by
      rw [← hentries, hinv.perm.length_eq]
      exact Nat.lt_succ_self _
    have hdrain := bPlusTreeIteratorDrain_spec hroot hshape hinv.chained.linked
      hinv.chained.nodup hfull (hleaves.trans (List.nil_append _).symm) (List.nil_append _).symm
      (hfull l (by simp [hleaves])) hfuel
    refine ⟨⟨some l.id, 0⟩, entries s.toks, hrun, ?_, ?_, hinv.perm, hinv.strict.sorted⟩
    · simp only [bPlusTreeGetIterator, hroot, hshape.height_eq, hleft, Option.map_some]
    · rw [hentries]
      exact hdrain

/-- Five keys in a tree of order 3. -/
theorem bPlusTreeInsertAll_iterate_three :
    ∃ t it out, bPlusTreeInsertAll 3 [(3, 30), (1, 10), (2, 20), (5, 50), (4, 40)] = some t ∧
      bPlusTreeGetIterator t = some it ∧ bPlusTreeIteratorDrain t 6 it = some out ∧
      out.Perm [(3, 30), (1, 10), (2, 20), (5, 50), (4, 40)] ∧
      out.Pairwise fun a b ↦ a.1 < b.1 :=
  bPlusTreeInsertAll_iterate (by decide) (by decide)

end LatteC
