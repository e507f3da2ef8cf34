import LatteC.Tree.BPlusTree.Calls

/-!
# What every reachable B+ tree has

`BPlusMapInv` holds as long as every call is safe. This file is about all runs, also those that go
through the wrong branches of `b_plus_tree_remove` or strand a key with an odd order. Then nothing is
left of the order of the keys, but the shape remains: all leaves are equally far down, every internal
node has one child more than keys, and the slots in use are not NULL. So no call ever writes outside
an array, and the only one that faults is a removal from a tree without a root.

The search goes by the keys it meets (`BPlusAimed`), not by their order.
-/

namespace LatteC

open SlotArray LeafSeq CallMachine

variable {K V : Type}

/-- All leaves are `h` levels down, every array has its full length, and an internal node has one child
more than keys. -/
def BPlusNode.Sound (order h : ℕ) (node : BPlusNode K V) : Prop := ∃ ts, node.Shape order h ts

/-- The invariant of every run. -/
structure BPlusTree.Sound (order : ℕ) (t : BPlusTree K V) : Prop where
  order_eq : t.order = order
  root : ∀ root, t.root = some root → ∃ h, root.Sound order h

theorem sound_bPlusTreeNew (order : ℕ) : (bPlusTreeNew order : BPlusTree K V).Sound order :=
  ⟨rfl, fun root hroot ↦ by simp [bPlusTreeNew] at hroot⟩

variable {order : ℕ}

theorem BPlusNode.Sound.height_eq {h : ℕ} {node : BPlusNode K V} (hs : node.Sound order h) :
    node.height = h := by
  obtain ⟨ts, hs⟩ := hs
  exact hs.height_eq

section Store

variable [LinearOrder K]

/-- The search ends, and what it finds can be overwritten. -/
theorem privateBPlusTreeFind_sound (key : K) : ∀ {h : ℕ} {node : BPlusNode K V},
    node.Sound order h → ∃ r, privateBPlusTreeFind key h node = some r ∧
      ∀ p, r = some p → ∀ data, ∃ node', bPlusStore p.slot data p.path node = some node' ∧
        node'.Sound order h := by
  intro h
  induction h with
  | zero =>
    rintro node ⟨ts, hs⟩
    cases node with
    | inner slots n children => exact hs.elim
    | leaf id slots n next =>
      obtain ⟨es, hslots, rfl, rfl⟩ := hs
      obtain ⟨X, Y, rfl, hX, hY⟩ := exists_cut_last key es
      have hdesc := bPlusDescend_eq_of_last hslots hX hY
      rcases List.eq_nil_or_concat X with rfl | ⟨X, x, rfl⟩
      · refine ⟨none, ?_, by simp⟩
        rw [privateBPlusTreeFind, hdesc]
        rfl
      · rw [List.concat_eq_append] at hslots hdesc ⊢
        have hlen : (X ++ [x]).length = X.length + 1 := by simp
        rw [hlen] at hdesc
        rw [List.append_assoc, List.singleton_append] at hslots hdesc ⊢
        have hread : read slots X.length = some x := hslots.read
        refine ⟨if key = x.1 then some ⟨[], X.length⟩ else none, ?_, fun p hp data ↦ ?_⟩
        · rw [privateBPlusTreeFind, hdesc, Option.bind_some]
          simp only [hread, Option.map_some]
        · split_ifs at hp with hx
          obtain rfl := Option.some.inj hp
          obtain ⟨slots', hwrite, hslots'⟩ := hslots.write (x.1, data)
          refine ⟨.leaf id slots' (X ++ x :: Y).length next, ?_, _, _, hslots', ?_, rfl⟩
          · rw [bPlusStore, hread, Option.bind_some, hwrite, Option.map_some]
          · rw [List.length_append, List.length_append, List.length_cons, List.length_cons]
  | succ h ih =>
    rintro node ⟨ts, hs⟩
    cases node with
    | leaf id slots n next => exact hs.elim
    | inner slots n children =>
      obtain ⟨SA, SB, A, B, c, haim⟩ := hs.exists_aimed key
      obtain ⟨r, hfind, hstore⟩ := ih ⟨c.2, haim.shape_child⟩
      refine ⟨r.map fun p ↦ ⟨SA.length :: p.path, p.slot⟩, ?_, fun p hp data ↦ ?_⟩
      · rw [privateBPlusTreeFind, haim.descend, Option.bind_some, haim.read_child,
          Option.bind_some, hfind, Option.map_some]
      · obtain ⟨q, rfl, rfl⟩ := Option.map_eq_some_iff.mp hp
        obtain ⟨c', hload, tc', hc'⟩ := hstore q rfl data
        obtain ⟨children', hwrite, hshape⟩ := haim.exchange hc'
        refine ⟨.inner slots n children', ?_, _, hshape⟩
        rw [bPlusStore, haim.read_child, Option.bind_some, hload, Option.bind_some, hwrite,
          Option.map_some]

/-- Insertion below a node that is not full. -/
theorem bPlusTreeNodeInsert_sound (hord : 2 ≤ order) (key : K) (data : V) :
    ∀ {h : ℕ} (env : BPlusEnv) {node : BPlusNode K V}, node.Sound order h → node.numKeys < order →
      ∃ env' node', bPlusTreeNodeInsert order key data h env node = some (env', node') ∧
        node'.Sound order h := by
  intro h
  induction h with
  | zero =>
    rintro env node ⟨ts, hs⟩ hlt
    cases node with
    | inner slots n children => exact hs.elim
    | leaf id slots n next =>
      obtain ⟨es, hslots, rfl, rfl⟩ := hs
      obtain ⟨X, Y, rfl, hX, hY⟩ := exists_cut_last key es
      obtain ⟨z, R, rfl⟩ := hslots.exists_free hlt
      have hins := bPlusLeafInsert_eq key data X hX Y z R hY
      refine ⟨env, .leaf id ((X ++ (key, data) :: Y).map some ++ R) ((X ++ Y).length + 1) next,
        by rw [bPlusTreeNodeInsert, hins, Option.map_some], _, X ++ (key, data) :: Y,
        ⟨?_, R, rfl⟩, ?_, rfl⟩
      · have hcap := hslots.1
        simp only [List.length_append, List.length_map, List.length_cons] at hcap ⊢
        omega
      · rw [List.length_append, List.length_append, List.length_cons, Nat.add_assoc]
  | succ h ih =>
    rintro env node ⟨ts, hs⟩ hlt
    cases node with
    | leaf id slots n next => exact hs.elim
    | inner slots n children =>
      obtain ⟨SA, SB, A, B, c, haim⟩ := hs.exists_aimed key
      by_cases hfull : c.1.numKeys = order
      · -- the child is split first
        obtain ⟨l, r, tl, tr, sep, slots', children', hsplit, hres, hslots', hchildren'⟩ :=
          bPlusTreeNodeSplit_spec hord env haim.slots haim.length hlt haim.children
            (by simpa using haim.lengthA) (by simpa using haim.lengthB) haim.shape_child hfull
        have hn : (SA ++ sep :: SB).length = n + 1 := by
          rw [← haim.length, List.length_append, List.length_append, List.length_cons,
            Nat.add_assoc]
        have hkids : ∀ d ∈ A ++ (l, tl) :: (r, tr) :: B, d.1.Shape order h d.2 :=
          forall_mem_window (fun d hd ↦ haim.kids d (by simp [hd])) hres.left hres.right
            fun d hd ↦ haim.kids d (by simp [hd])
        by_cases hgt : sep.1 < key
        · obtain ⟨env', r', hins, tr', hr'⟩ := ih ⟨env.fresh + 1, env.splits ++ [(n, order)]⟩
            ⟨tr, hres.right⟩ hres.right_lt
          obtain ⟨children'', hwrite, hshape⟩ := BPlusNode.Shape.write_child (A := A ++ [(l, tl)])
            (c := (r, tr)) (d := (r', tr')) (B := B) (n := n + 1)
            (show Holds order slots' ((SA ++ [sep]) ++ SB) by simpa using hslots')
            (by simpa using hn) (by simpa using hchildren')
            (by simp [haim.lengthA]) haim.lengthB (by simpa using hkids) hr'
          rw [List.length_append, List.length_singleton] at hwrite
          have hreadr : read children' (SA.length + 1) = some r := by
            have := SlotArray.Holds.read (X := A.map Prod.fst ++ [l]) (x := r)
              (Y := B.map Prod.fst) (by simpa using hchildren')
            simpa [haim.lengthA] using this
          exact ⟨env', .inner slots' (n + 1) children'',
            haim.insert_eq_of_split hfull hsplit hslots'.read (if_pos hgt) hreadr hins hwrite, _, hshape⟩
        · obtain ⟨env', l', hins, tl', hl'⟩ := ih ⟨env.fresh + 1, env.splits ++ [(n, order)]⟩
            ⟨tl, hres.left⟩ hres.left_lt
          obtain ⟨children'', hwrite, hshape⟩ := BPlusNode.Shape.write_child (A := A)
            (c := (l, tl)) (d := (l', tl')) (B := (r, tr) :: B) (n := n + 1) hslots' hn
            (by simpa using hchildren') haim.lengthA
            (by simp [haim.lengthB]) hkids hl'
          have hreadl : read children' SA.length = some l := by
            have := SlotArray.Holds.read hchildren'
            simpa [haim.lengthA] using this
          exact ⟨env', .inner slots' (n + 1) children'',
            haim.insert_eq_of_split hfull hsplit hslots'.read (if_neg hgt) hreadl hins hwrite, _, hshape⟩
      · have hlt' : c.1.numKeys < order := lt_of_le_of_ne haim.shape_child.numKeys_le hfull
        obtain ⟨env', c', hins, tc', hc'⟩ := ih env ⟨c.2, haim.shape_child⟩ hlt'
        obtain ⟨children', hwrite, hshape⟩ := haim.exchange hc'
        exact ⟨env', .inner slots n children', haim.insert_eq_of_room hfull hins hwrite, _, hshape⟩

variable {t t' : BPlusTree K V}

/-- **Storing keeps the shape.** -/
theorem bPlusTreeInsert_sound (hord : 2 ≤ order) (hs : t.Sound order) (key : K) (data : V) :
    ∃ t', bPlusTreeInsert t key data = some t' ∧ t'.Sound order := by
  obtain ⟨rfl, hroot⟩ := hs
  have hnew : ∀ (env : BPlusEnv) {root : BPlusNode K V} {h : ℕ}, root.Sound t.order h →
      BPlusTree.Sound t.order { t with root := some root, env := env } := fun env _ _ h ↦
    ⟨rfl, fun root' hroot' ↦ ⟨_, Option.some.inj hroot' ▸ h⟩⟩
  cases ht : t.root with
  | none =>
    obtain ⟨env', root', hins, hs'⟩ := bPlusTreeNodeInsert_sound (h := 0) hord key data
      ⟨t.env.fresh + 1, t.env.splits⟩
      (show (BPlusNode.leaf t.env.fresh (List.replicate t.order none) 0 none).Sound t.order 0 from
        ⟨_, [], Holds.replicate _, rfl, rfl⟩) (by simp only [BPlusNode.numKeys]; omega)
    refine ⟨_, ?_, hnew env' hs'⟩
    simp only [bPlusTreeInsert, ht, hins, Option.map_some]
  | some root =>
    obtain ⟨h, hs⟩ := hroot root ht
    have hheight := hs.height_eq
    by_cases hfull : root.numKeys = t.order
    · obtain ⟨ts, hshape⟩ := hs
      obtain ⟨children, hwrite, hchildren⟩ :=
        (Holds.replicate (α := BPlusNode K V) (t.order + 1)).push (by simp) root
      rw [List.length_nil] at hwrite
      obtain ⟨l, r, tl, tr, sep, slots', children', hsplit, hres, hslots', hchildren'⟩ :=
        bPlusTreeNodeSplit_spec hord t.env (n := 0) (A := []) (B := [])
          (show Holds t.order _ ([] ++ []) from Holds.replicate (α := K × V) t.order) rfl (by omega)
          hchildren rfl rfl hshape hfull
      rw [List.length_nil] at hsplit
      have htwo : (BPlusNode.inner slots' 1 children').Sound t.order (h + 1) :=
        ⟨_, BPlusNode.Shape.of_two (A := []) (B := []) (c := (l, tl)) (d := (r, tr)) hslots' rfl
          hchildren' rfl rfl (forall_mem_window (by simp) hres.left hres.right (by simp))⟩
      obtain ⟨env', root', hins, hs'⟩ := bPlusTreeNodeInsert_sound hord key data
        ⟨t.env.fresh + 1, t.env.splits ++ [(0, t.order)]⟩ htwo
        (by simp only [BPlusNode.numKeys]; omega)
      refine ⟨_, ?_, hnew env' hs'⟩
      simp only [bPlusTreeInsert, ht, if_pos hfull, hwrite, Option.bind_some, hheight, hsplit,
        Nat.zero_add, hins, Option.map_some]
    · obtain ⟨ts, hshape⟩ := hs
      obtain ⟨env', root', hins, hs'⟩ := bPlusTreeNodeInsert_sound hord key data t.env
        ⟨ts, hshape⟩ (lt_of_le_of_ne hshape.numKeys_le hfull)
      refine ⟨_, ?_, hnew env' hs'⟩
      simp only [bPlusTreeInsert, ht, if_neg hfull, hheight, hins, Option.map_some]

theorem bPlusTreeInsertOrUpdate_sound (hord : 2 ≤ order) (hs : t.Sound order) (key : K) (data : V) :
    ∃ t', bPlusTreeInsertOrUpdate t key data = some t' ∧ t'.Sound order := by
  obtain ⟨t₁, hins, hs₁⟩ := bPlusTreeInsert_sound hord hs key data
  cases ht : t.root with
  | none => exact ⟨t₁, by simp only [bPlusTreeInsertOrUpdate, ht, hins], hs₁⟩
  | some root =>
    obtain ⟨h, hroot⟩ := hs.root root ht
    obtain ⟨r, hfind, hstore⟩ := privateBPlusTreeFind_sound key hroot
    have hheight := hroot.height_eq
    cases r with
    | none =>
      refine ⟨t₁, ?_, hs₁⟩
      simp only [bPlusTreeInsertOrUpdate, ht, hheight, hfind, Option.bind_some, hins]
    | some p =>
      obtain ⟨root', hput, hroot'⟩ := hstore p rfl data
      refine ⟨{ t with root := some root' }, ?_, hs.order_eq,
        fun r hr ↦ ⟨h, Option.some.inj hr ▸ hroot'⟩⟩
      simp only [bPlusTreeInsertOrUpdate, ht, hheight, hfind, Option.bind_some, hput,
        Option.map_some]

end Store

section Remove

variable [LinearOrder K]

/-- What `b_plus_tree_remove` leaves of a subtree has the shape again. -/
inductive BPlusRemovedSound (order h : ℕ) : BPlusRemoved K V → Prop
  | notFound : BPlusRemovedSound order h .notFound
  | kept {node : BPlusNode K V} : node.Sound order h → BPlusRemovedSound order h (.kept node)
  | dropped {slots : List (Option (K × V))} {n : ℕ} {children : List (Option (BPlusNode K V))} :
      (BPlusNode.inner slots n children).Sound order h →
      BPlusRemovedSound order h (.dropped slots n children)
  | gone : BPlusRemovedSound order h .gone

omit [LinearOrder K] in
theorem BPlusAdjusted.sound {n id : ℕ} {next : Option ℕ} {SA SB W : List (K × V)} {x : K × V}
    {A B : List (BPlusNode K V × List (Tok K V))} {r : Option (BPlusRemoved K V)}
    (hadj : BPlusAdjusted order n id next SA SB A B W x r) :
    ∃ r', r = some r' ∧ BPlusRemovedSound order 1 r' := by
  cases hadj with
  | borrowLeft _ _ _ _ _ _ _ _ hshape => exact ⟨_, rfl, .kept ⟨_, hshape⟩⟩
  | borrowRight _ _ _ _ _ _ _ hshape => exact ⟨_, rfl, .kept ⟨_, hshape⟩⟩
  | mergeLeft _ _ _ _ _ hshape => exact ⟨_, rfl, .kept ⟨_, hshape⟩⟩
  | mergeRight _ _ _ _ _ hshape => exact ⟨_, rfl, .kept ⟨_, hshape⟩⟩
  | alone _ _ hshape => exact ⟨_, rfl, .kept ⟨_, hshape⟩⟩
  | gone => exact ⟨_, rfl, .gone⟩

/-- The leaf in which the source looks for a key, after the key has been taken out of it. -/
theorem BPlusAimed.detached {key : K} {n : ℕ} {slots leaf' : List (Option (K × V))}
    {children : List (Option (BPlusNode K V))} {SA SB W : List (K × V)} {x : K × V}
    {A B : List (BPlusNode K V × List (Tok K V))} {c : BPlusNode K V × List (Tok K V)}
    (haim : BPlusAimed order 0 key slots n children SA SB A B c)
    (hleaf' : Holds order leaf' (W ++ [x])) :
    BPlusDetached order slots n children SA SB A B c.1 leaf' W x := by
  refine ⟨haim.slots, haim.length, haim.children, haim.lengthA, haim.lengthB, fun d hd ↦ ?_, hleaf'⟩
  exact haim.kids d (((List.sublist_cons_self c B).append_left A).subset hd)

/-- Taking the child out moves the children behind it up and leaves the separators. -/
theorem BPlusAimed.exists_shiftDown {key : K} {h n : ℕ} {slots : List (Option (K × V))}
    {children : List (Option (BPlusNode K V))} {SA SB : List (K × V)}
    {A B : List (BPlusNode K V × List (Tok K V))} {c : BPlusNode K V × List (Tok K V)}
    (haim : BPlusAimed order h key slots n children SA SB A B c) (hn : n ≠ 0) :
    ∃ children', shiftDown SA.length (n - SA.length) children = some children' ∧
      (BPlusNode.inner slots (n - 1) children').Sound order (h + 1) := by
  have hlen := haim.length
  rw [List.length_append] at hlen
  obtain ⟨children', hshift, hchildren'⟩ := haim.children.remove
  have hcount : n - SA.length = (B.map Prod.fst).length := by
    rw [List.length_map, haim.lengthB]
    omega
  rw [List.length_map, haim.lengthA, ← hcount] at hshift
  rw [← List.append_assoc, ← List.map_append] at hchildren'
  have hslots : Holds order slots ((SA ++ SB).take (n - 1)) := by
    refine Holds.of_append (Y := (SA ++ SB).drop (n - 1)) ?_
    rw [List.take_append_drop]
    exact haim.slots
  refine ⟨children', hshift, _, (SA ++ SB).take (n - 1), A ++ B, hslots, ?_,
    hchildren'.of_append, ?_, fun d hd ↦ haim.kids d ?_, rfl⟩
  · rw [List.length_take, List.length_append]
    omega
  · rw [List.length_append, haim.lengthA, haim.lengthB, hlen]
    omega
  · exact ((List.sublist_cons_self c B).append_left A).subset hd

/-- **Removal below an internal node**, whichever branches it takes. -/
theorem bPlusTreeRemoveNode_sound (hord : 2 ≤ order) (key : K) :
    ∀ {h : ℕ} {node : BPlusNode K V}, node.Sound order (h + 1) →
      ∃ r, bPlusTreeRemoveNode order key (h + 1) node = some r ∧
        BPlusRemovedSound order (h + 1) r := by
  intro h
  induction h with
  | zero =>
    rintro node ⟨ts, hs⟩
    cases node with
    | leaf id slots n next => exact hs.elim
    | inner slots n children =>
      obtain ⟨SA, SB, A, B, c, haim⟩ := hs.exists_aimed key
      obtain ⟨id, leaf, next, es, hc, hleaf⟩ := haim.shape_child.eq_leaf
      have hread := haim.read_child
      rw [hc] at hread
      rcases exists_entry_or es key with hes | ⟨X, v, Y, rfl, hX⟩
      · have hnone := bPlusTreeLeafNodeRemove_eq_none hleaf hes rfl
        simp only [bPlusTreeRemoveNode, haim.descend, Option.bind_eq_bind, Option.bind_some, hread,
          hnone, Option.pure_def]
        exact ⟨_, rfl, .notFound⟩
      · obtain ⟨leaf', hremove, hleaf'⟩ := bPlusTreeLeafNodeRemove_spec hleaf hX rfl
        simp only [bPlusTreeRemoveNode, haim.descend, Option.bind_eq_bind, Option.bind_some, hread,
          hremove, Option.pure_def]
        split_ifs with hsmall
        · exact (bPlusTreeAdjustLeafBalance_adjusted hord (haim.detached hleaf') hsmall id
            next).sound
        · obtain ⟨children', hwrite, hshape⟩ := haim.exchange
            (show (BPlusNode.leaf id leaf' (X ++ Y).length next).Shape order 0 _ from
              ⟨X ++ Y, hleaf'.of_append, rfl, rfl⟩)
          rw [hwrite, Option.bind_some]
          exact ⟨_, rfl, .kept ⟨_, hshape⟩⟩
  | succ h ih =>
    rintro node ⟨ts, hs⟩
    cases node with
    | leaf id slots n next => exact hs.elim
    | inner slots n children =>
      obtain ⟨SA, SB, A, B, c, haim⟩ := hs.exists_aimed key
      obtain ⟨r, hremove, hr⟩ := ih ⟨c.2, haim.shape_child⟩
      obtain ⟨cslots, cn, cchildren, hc⟩ : ∃ s m cs, c.1 = .inner s m cs := by
        have hshape := haim.shape_child
        cases hc : c.1 with
        | leaf id slots n next =>
          rw [hc] at hshape
          exact hshape.elim
        | inner s m cs => exact ⟨s, m, cs, rfl⟩
      have hread := haim.read_child
      rw [hc] at hread hremove
      rw [bPlusTreeRemoveNode]
      simp only [haim.descend, Option.bind_eq_bind, Option.bind_some, hread, hremove,
        Option.pure_def]
      cases hr with
      | notFound => exact ⟨_, rfl, .notFound⟩
      | kept hnode =>
        obtain ⟨tc', hc'⟩ := hnode
        obtain ⟨children', hwrite, hshape⟩ := haim.exchange hc'
        simp only [hwrite, Option.bind_some]
        exact ⟨_, rfl, .kept ⟨_, hshape⟩⟩
      | dropped hnode =>
        obtain ⟨tc', hc'⟩ := hnode
        obtain ⟨children', hwrite, hshape⟩ := haim.exchange hc'
        simp only [hwrite, Option.bind_some]
        exact ⟨_, rfl, .kept ⟨_, hshape⟩⟩
      | gone =>
        split_ifs with hn
        · exact ⟨_, rfl, .gone⟩
        · obtain ⟨children', hshift, hnode⟩ := haim.exists_shiftDown hn
          simp only [hshift, Option.bind_some]
          exact ⟨_, rfl, .dropped hnode⟩

/-- **Removal keeps the shape.** It faults only on a tree without a root. -/
theorem bPlusTreeRemove_sound {t : BPlusTree K V} (hord : 2 ≤ order) (hs : t.Sound order)
    (hroot : t.root ≠ none) (key : K) :
    ∃ t' found, bPlusTreeRemove t key = some (t', found) ∧ t'.Sound order := by
  obtain ⟨root, ht⟩ := Option.ne_none_iff_exists'.mp hroot
  obtain ⟨h, hnode⟩ := hs.root root ht
  obtain rfl := hs.order_eq
  have hnew : ∀ {root : BPlusNode K V} {h : ℕ}, root.Sound t.order h →
      BPlusTree.Sound t.order { t with root := some root } := fun h ↦
    ⟨rfl, fun root' hroot' ↦ ⟨_, Option.some.inj hroot' ▸ h⟩⟩
  have hempty : BPlusTree.Sound t.order ({ t with root := none } : BPlusTree K V) :=
    ⟨rfl, fun root' hroot' ↦ by simp at hroot'⟩
  have hheight := hnode.height_eq
  cases h with
  | zero =>
    obtain ⟨ts, hshape⟩ := hnode
    cases root with
    | inner slots n children => exact hshape.elim
    | leaf id slots n next =>
      obtain ⟨es, hslots, hn, rfl⟩ := hshape
      rcases exists_entry_or es key with hes | ⟨X, v, Y, rfl, hX⟩
      · have hnone := bPlusTreeLeafNodeRemove_eq_none hslots hes hn
        simp only [bPlusTreeRemove, ht, Option.bind_some, hnone, Option.map_some]
        exact ⟨_, _, rfl, hs⟩
      · obtain ⟨slots', hremove, hslots'⟩ := bPlusTreeLeafNodeRemove_spec hslots hX hn
        simp only [bPlusTreeRemove, ht, Option.bind_some, hremove, Option.map_some]
        split_ifs with hzero
        · exact ⟨_, _, rfl, hempty⟩
        · exact ⟨_, _, rfl, hnew (h := 0) ⟨_, X ++ Y, hslots'.of_append, rfl, rfl⟩⟩
  | succ h =>
    obtain ⟨r, hremove, hr⟩ := bPlusTreeRemoveNode_sound hord key hnode
    cases root with
    | leaf id slots n next =>
      obtain ⟨ts, hshape⟩ := hnode
      exact hshape.elim
    | inner slots n children =>
      simp only [bPlusTreeRemove, ht, Option.bind_some, hheight, hremove]
      cases hr with
      | notFound => exact ⟨_, _, rfl, hs⟩
      | kept hnode' => exact ⟨_, _, rfl, hnew hnode'⟩
      | gone => exact ⟨_, _, rfl, hempty⟩
      | dropped hnode' =>
        dsimp only
        split_ifs with hm
        · -- the root has a single child left, which becomes the root
          obtain ⟨ts, ss, kids, -, rfl, hchildren, hlen, hkids, -⟩ := hnode'
          rw [hm, Nat.zero_add] at hlen
          obtain ⟨d, rfl⟩ := List.length_eq_one_iff.mp hlen
          have hread : read _ 0 = some d.1 := hchildren.read_of_getElem? rfl
          rw [hread, Option.map_some]
          exact ⟨_, _, rfl, hnew ⟨d.2, hkids d (by simp)⟩⟩
        · exact ⟨_, _, rfl, hnew hnode'⟩

theorem bPlusStep_sound {t t' : BPlusTree K V} (hord : 2 ≤ order) {call : BPlusCall K V}
    {reply : Option Bool} (hs : t.Sound order) (hstep : bPlusStep t call = some (t', reply)) :
    t'.Sound order := by
  cases call with
  | store key data =>
    obtain ⟨t₁, hrun, hs₁⟩ := bPlusTreeInsertOrUpdate_sound hord hs key data
    rw [bPlusStep, hrun, Option.map_some, Option.some.injEq, Prod.mk.injEq] at hstep
    exact hstep.1 ▸ hs₁
  | remove key =>
    cases ht : t.root with
    | none => simp [bPlusStep, bPlusTreeRemove, ht] at hstep
    | some root =>
      obtain ⟨t₁, found, hrun, hs₁⟩ := bPlusTreeRemove_sound hord hs (by simp [ht]) key
      rw [bPlusStep, hrun, Option.map_some, Option.some.injEq, Prod.mk.injEq] at hstep
      exact hstep.1 ▸ hs₁

/-- **Every run keeps the shape.** -/
theorem run_bPlusStep_sound {t : BPlusTree K V} (hord : 2 ≤ order) {calls : List (BPlusCall K V)}
    {replies : List (Option Bool)} (hrun : run bPlusStep (bPlusTreeNew order) calls =
      some (t, replies)) : t.Sound order :=
  run_invariant (fun _ _ _ _ hs hstep ↦ bPlusStep_sound hord hs hstep) (sound_bPlusTreeNew order)
    hrun

end Remove

end LatteC
