import LatteC.Tree.BPlusTree.Shape
import Mathlib.Data.List.Dedup
import Mathlib.Data.Finset.Card

/-!
# Insertion into a B+ tree

What `b_plus_tree_insert` and `b_plus_tree_insert_or_update` do to the sequence of leaves, and what
follows for sequences of calls.

## The two parities

A leaf is split so that the separator is a copy of the key at `order / 2`. For an even order that is
the first key of the new leaf, and a search for it goes right, where it is. For an odd order it is
the last key of the *old* leaf, and a search for it still goes right. So an odd order strands one
key with every split: `b_plus_tree_find` no longer finds it, and storing it again adds a second copy.
-/

namespace LatteC

open SlotArray LeafSeq SortedAssoc

variable {K V : Type}

/-- The tree reads `s` from left to right. An empty tree reads as the empty leaf that the next
insertion allocates. -/
def BPlusTree.Reads (t : BPlusTree K V) (s : Flat K V) : Prop :=
  match t.root with
  | none => s = ⟨[.leaf ⟨t.env.fresh, [], none⟩], t.env.fresh + 1⟩
  | some root => (∃ h, root.Shape t.order h s.toks) ∧ s.fresh = t.env.fresh

/-- The record of splits only has splits of full children of nodes that are not full. -/
def BPlusTree.SplitsOk (t : BPlusTree K V) : Prop :=
  ∀ p ∈ t.env.splits, p.1 < t.order ∧ p.2 = t.order

theorem reads_bPlusTreeNew (order : ℕ) :
    (bPlusTreeNew order : BPlusTree K V).Reads ⟨[.leaf ⟨0, [], none⟩], 1⟩ := rfl

section Insert

variable [LinearOrder K] {t : BPlusTree K V} {s : Flat K V} {key : K} {data : V}

/-- Some full node below the root has `key` as its middle key. -/
def bPlusTreeTie (t : BPlusTree K V) (key : K) : Bool :=
  match t.root with
  | none => false
  | some root => bPlusTie t.order key root.height root

/-- What `b_plus_tree_insert` returns. -/
structure BPlusTreeGrown (t : BPlusTree K V) (s : Flat K V) (key : K) (data : V)
    (t' : BPlusTree K V) (s' : Flat K V) : Prop where
  run : bPlusTreeInsert t key data = some t'
  order : t'.order = t.order
  reads : t'.Reads s'
  root : t'.root ≠ none
  grow : Grow t.order key data (bPlusTreeTie t key = true ∨ .key key ∈ marks s.toks) s s'
  splits : t.SplitsOk → t'.SplitsOk

/-- From a subtree to the tree. -/
private theorem grown_of_inserted {h : ℕ} {env env' : BPlusEnv} {node root' : BPlusNode K V}
    {ts ts' : List (Tok K V)} {t' : BPlusTree K V}
    (hins : BPlusInserted t.order h key data env node ts env' root' ts')
    (ht' : t' = { t with root := some root', env := env' })
    (hrun : bPlusTreeInsert t key data = some t')
    (hgrow : Grow t.order key data (bPlusTreeTie t key = true ∨ .key key ∈ marks s.toks) s
      ⟨ts', env'.fresh⟩)
    (henv : t.SplitsOk → ∀ p ∈ env.splits, p.1 < t.order ∧ p.2 = t.order) :
    BPlusTreeGrown t s key data t' ⟨ts', env'.fresh⟩ := by
  subst ht'
  refine ⟨hrun, rfl, ⟨⟨h, hins.shape⟩, rfl⟩, by simp, hgrow, fun hok p hp ↦ ?_⟩
  obtain ⟨log, hlog, hlogok⟩ := hins.log
  simp only [hlog, List.mem_append] at hp
  exact hp.elim (henv hok p) (hlogok p)

/-- **Insertion, on the sequence of leaves.** -/
theorem bPlusTreeInsert_spec (hord : 2 ≤ t.order) (hs : t.Reads s) (hw : Weak s.toks) (key : K)
    (data : V) : ∃ t' s', BPlusTreeGrown t s key data t' s' := by
  cases hroot : t.root with
  | none =>
    rw [BPlusTree.Reads, hroot] at hs
    subst hs
    -- the first leaf is allocated, and has room
    obtain ⟨env', root', ts', hins⟩ := bPlusTreeNodeInsert_spec (h := 0) hord key data
      ⟨t.env.fresh + 1, t.env.splits⟩
      (show (BPlusNode.leaf t.env.fresh (List.replicate t.order none) 0 none).Shape t.order 0 _ from
        ⟨[], Holds.replicate _, rfl, rfl⟩) (by simp only [BPlusNode.numKeys]; omega) hw
    refine ⟨_, _, grown_of_inserted hins rfl ?_ ?_ fun hok ↦ hok⟩
    · simp only [bPlusTreeInsert, hroot, hins.run, Option.map_some]
    · obtain ⟨s₁, hsplits, hfresh, hi⟩ := hins.grow
      exact ⟨s₁, hsplits, hfresh, by simpa [bPlusTie, bPlusTreeTie, hroot] using hi⟩
  | some root =>
    rw [BPlusTree.Reads, hroot] at hs
    obtain ⟨⟨h, hshape⟩, hfresh⟩ := hs
    have hheight := hshape.height_eq
    have htie : bPlusTreeTie t key = bPlusTie t.order key h root := by
      simp only [bPlusTreeTie, hroot, hheight]
    obtain ⟨ts, fresh⟩ := s
    simp only at hfresh hshape hw ⊢
    subst hfresh
    by_cases hfull : root.numKeys = t.order
    · -- a new root above the two halves of the old one
      obtain ⟨children, hwrite, hchildren⟩ :=
        (Holds.replicate (α := BPlusNode K V) (t.order + 1)).push (by simp) root
      rw [List.length_nil] at hwrite
      obtain ⟨l, r, tl, tr, sep, slots', children', hsplit, hres, hslots', hchildren'⟩ :=
        bPlusTreeNodeSplit_spec hord t.env (n := 0) (A := []) (B := [])
          (show Holds t.order _ ([] ++ []) from Holds.replicate (α := K × V) t.order) rfl (by omega)
          hchildren rfl rfl hshape hfull
      have hstep := hres.split
      have hw' := hstep.weak hw
      have hnew : (BPlusNode.inner slots' 1 children').Shape t.order (h + 1)
          (tl ++ .sep sep.1 :: tr) := by
        refine ⟨[sep], [(l, tl), (r, tr)], hslots', rfl, hchildren', rfl, ?_, ?_⟩
        · intro d hd
          simp only [List.mem_cons, List.not_mem_nil, or_false] at hd
          rcases hd with rfl | rfl
          · exact hres.left
          · exact hres.right
        · simp [weave, weaveR]
      obtain ⟨env', root', ts', hins⟩ := bPlusTreeNodeInsert_spec hord key data
        ⟨t.env.fresh + 1, t.env.splits ++ [(0, t.order)]⟩ hnew (by simp only [BPlusNode.numKeys]; omega) hw'
      refine ⟨_, _, grown_of_inserted hins rfl ?_ (Grow.of_split hstep ?_) ?_⟩
      · simp only [bPlusTreeInsert, hroot, if_pos hfull, hwrite, Option.bind_some, hheight]
        rw [List.length_nil] at hsplit
        rw [hsplit, Option.bind_some, hins.run, Option.map_some]
      · refine hins.grow.mono (Or.imp (fun htie' ↦ ?_) fun hk ↦ ?_)
        · -- neither half is full, so a tie is further down
          have htake : children'.take (1 + 1) = [some l, some r] := hchildren'.take
          rw [bPlusTie, htake] at htie'
          have hl := hres.left_lt.ne
          have hr := hres.right_lt.ne
          rw [htie]
          refine hres.tie key ?_
          simpa [hl, hr] using htie'
        · obtain ⟨e, he, hek⟩ := key_mem_marks.mp hk
          rw [hstep.entries] at he
          exact key_mem_marks.mpr ⟨e, he, hek⟩
      · intro hok p hp
        rcases List.mem_append.mp hp with hp | hp
        · exact hok p hp
        · rw [List.mem_singleton.mp hp]
          exact ⟨by omega, rfl⟩
    · obtain ⟨env', root', ts', hins⟩ := bPlusTreeNodeInsert_spec hord key data t.env hshape
        (lt_of_le_of_ne hshape.numKeys_le hfull) hw
      refine ⟨_, _, grown_of_inserted hins rfl ?_ ?_ fun hok ↦ hok⟩
      · simp only [bPlusTreeInsert, hroot, if_neg hfull, hheight, hins.run, Option.map_some]
      · rw [htie]
        exact hins.grow

/-- Without removals a tie is with a key that is there. -/
theorem key_mem_of_bPlusTreeTie (hord : 2 ≤ t.order) (hs : t.Reads s)
    (hsep : ∀ x, .sep x ∈ marks s.toks → .key x ∈ marks s.toks)
    (htie : bPlusTreeTie t key = true) : .key key ∈ marks s.toks := by
  cases hroot : t.root with
  | none => simp [bPlusTreeTie, hroot] at htie
  | some root =>
    rw [BPlusTree.Reads, hroot] at hs
    obtain ⟨⟨h, hshape⟩, -⟩ := hs
    simp only [bPlusTreeTie, hroot, hshape.height_eq] at htie
    exact (mem_marks_of_bPlusTie hord hshape htie).elim (hsep key) id

end Insert

/-! ## Looking up -/

theorem BPlusTree.Reads.pairs_eq {t : BPlusTree K V} {s : Flat K V} (hs : t.Reads s) :
    t.pairs = entries s.toks := by
  cases hroot : t.root with
  | none =>
    rw [BPlusTree.Reads, hroot] at hs
    simp [BPlusTree.pairs, hroot, hs]
  | some root =>
    rw [BPlusTree.Reads, hroot] at hs
    obtain ⟨⟨h, hshape⟩, -⟩ := hs
    simp only [BPlusTree.pairs, hroot, hshape.height_eq, hshape.pairs_eq]

section Lookup

variable [LinearOrder K] {t : BPlusTree K V} {s : Flat K V}

/-- What `b_plus_tree_find` returns, on the sequence of leaves. -/
theorem bPlusTreeFind_spec (hs : t.Reads s) (hroot : t.root ≠ none) (hw : Weak s.toks) (key : K) :
    ∃ P Q l X Y, Sought key s.toks P Q l X Y ∧
      ((bPlusTreeFind t key = some none ∧ ∀ x, X.getLast? = some x → x.1 ≠ key) ∨
        ∃ X' v, X = X' ++ [(key, v)] ∧ bPlusTreeFind t key = some (some v)) := by
  obtain ⟨root, hroot⟩ := Option.ne_none_iff_exists'.mp hroot
  rw [BPlusTree.Reads, hroot] at hs
  obtain ⟨⟨h, hshape⟩, -⟩ := hs
  obtain ⟨P, Q, l, X, Y, hfound⟩ := privateBPlusTreeFind_spec key hshape hw
  refine ⟨P, Q, l, X, Y, hfound.sought, ?_⟩
  rcases hfound.result with ⟨hnone, hlast⟩ | ⟨X', v, p, hX, hsome, hload, -⟩
  · left
    refine ⟨?_, hlast⟩
    simp only [bPlusTreeFind, hroot, Option.bind_some, hshape.height_eq, hnone]
  · right
    refine ⟨X', v, hX, ?_⟩
    simp only [bPlusTreeFind, hroot, Option.bind_some, hshape.height_eq, hsome, hload,
      Option.map_some]

/-- In an ordered tree the search is a lookup in the list of entries. -/
theorem bPlusTreeFind_eq {odd : Bool} (hs : t.Reads s) (hroot : t.root ≠ none)
    (hst : Strict odd s.toks) {key : K} (hf : Findable key s.toks) :
    bPlusTreeFind t key = some (get key (entries s.toks)) := by
  obtain ⟨P, Q, l, X, Y, hsought, hres⟩ := bPlusTreeFind_spec hs hroot hst.weak key
  rcases hres with ⟨hfind, hlast⟩ | ⟨X', v, rfl, hfind⟩
  · rw [hfind, hsought.get_eq_none hst hf hlast]
  · rw [hfind, hsought.get_eq_some hst]

/-- What `b_plus_tree_insert_or_update` returns: it overwrites one value, or it inserts a key that the
search has not found. -/
structure BPlusTreeStored (t : BPlusTree K V) (s : Flat K V) (key : K) (data : V)
    (t' : BPlusTree K V) (s' : Flat K V) : Prop where
  run : bPlusTreeInsertOrUpdate t key data = some t'
  order : t'.order = t.order
  reads : t'.Reads s'
  root : t'.root ≠ none
  change : ∃ P Q l X Y, Sought key s.toks P Q l X Y ∧
    ((∃ X' v, X = X' ++ [(key, v)] ∧
        s' = ⟨P ++ .leaf { l with entries := X' ++ (key, data) :: Y } :: Q, s.fresh⟩) ∨
      ((∀ x, X.getLast? = some x → x.1 ≠ key) ∧ BPlusTreeGrown t s key data t' s'))

/-- **Storing, on the sequence of leaves.** -/
theorem bPlusTreeInsertOrUpdate_spec (hord : 2 ≤ t.order) (hs : t.Reads s) (hw : Weak s.toks)
    (key : K) (data : V) : ∃ t' s', BPlusTreeStored t s key data t' s' := by
  obtain ⟨t₁, s₁, hgrown⟩ := bPlusTreeInsert_spec hord hs hw key data
  cases hroot : t.root with
  | none =>
    rw [BPlusTree.Reads, hroot] at hs
    subst hs
    refine ⟨t₁, s₁, ?_, hgrown.order, hgrown.reads, hgrown.root, [], [], _, [], [],
      ⟨rfl, rfl, ⟨by simp, by simp, Or.inl rfl⟩, by simp, by simp⟩, Or.inr ⟨by simp, hgrown⟩⟩
    simp only [bPlusTreeInsertOrUpdate, hroot, hgrown.run]
  | some root =>
    have hs' := hs
    rw [BPlusTree.Reads, hroot] at hs'
    obtain ⟨⟨h, hshape⟩, hfresh⟩ := hs'
    obtain ⟨P, Q, l, X, Y, hfound⟩ := privateBPlusTreeFind_spec key hshape hw
    rcases hfound.result with ⟨hnone, hlast⟩ | ⟨X', v, p, hX, hsome, -, hstore⟩
    · refine ⟨t₁, s₁, ?_, hgrown.order, hgrown.reads, hgrown.root, P, Q, l, X, Y, hfound.sought,
        Or.inr ⟨hlast, hgrown⟩⟩
      simp only [bPlusTreeInsertOrUpdate, hroot, hshape.height_eq, hnone, Option.bind_some,
        hgrown.run]
    · obtain ⟨root', hstore, hshape'⟩ := hstore data
      refine ⟨{ t with root := some root' }, _, ?_, rfl, ?_, by simp, P, Q, l, X, Y,
        hfound.sought, Or.inl ⟨X', v, hX, rfl⟩⟩
      · simp only [bPlusTreeInsertOrUpdate, hroot, hshape.height_eq, hsome, Option.bind_some,
          hstore, Option.map_some]
      · exact ⟨⟨h, hshape'⟩, hfresh⟩

end Lookup

end LatteC
