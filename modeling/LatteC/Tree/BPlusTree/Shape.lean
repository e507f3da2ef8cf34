import LatteC.Foundation.LeafSeq.Grow
import LatteC.Tree.BPlusTree.Basic

/-!
# From the tree to the sequence of its leaves

`BPlusNode.Shape order h node ts`: the node is the root of a tree in which all leaves are `h` levels
down, every array has its full length, every internal node has one child more than keys, and `ts`
is the sequence of leaves and separators read from left to right.

The lemmas of this file say what the recursive functions of the source do to that sequence. A search
ends in the leaf that the separators single out; an insertion is a number of splits followed by one
change of one leaf (`LeafSeq.Grow`). Everything else about the tree is proved on sequences.
-/

namespace LatteC

open SlotArray LeafSeq

variable {K V : Type}

/-- The node has all its leaves `h` levels down, and reads `ts` from left to right. -/
def BPlusNode.Shape (order : ℕ) : ℕ → BPlusNode K V → List (Tok K V) → Prop
  | 0, .leaf id slots n next, ts =>
    ∃ es, Holds order slots es ∧ es.length = n ∧ ts = [.leaf ⟨id, es, next⟩]
  | h + 1, .inner slots n children, ts =>
    ∃ (ss : List (K × V)) (kids : List (BPlusNode K V × List (Tok K V))),
      Holds order slots ss ∧ ss.length = n ∧
      Holds (order + 1) children (kids.map Prod.fst) ∧ kids.length = n + 1 ∧
      (∀ c ∈ kids, Shape order h c.1 c.2) ∧ ts = weave (kids.map Prod.snd) (ss.map Prod.fst)
  | _, _, _ => False

theorem BPlusNode.Shape.height_eq {order : ℕ} : ∀ {h : ℕ} {node : BPlusNode K V}
    {ts : List (Tok K V)}, node.Shape order h ts → node.height = h := by
  intro h
  induction h with
  | zero =>
    intro node ts hs
    cases node with
    | leaf id slots n next => rfl
    | inner slots n children => exact hs.elim
  | succ h ih =>
    intro node ts hs
    cases node with
    | leaf id slots n next => exact hs.elim
    | inner slots n children =>
      obtain ⟨ss, kids, -, -, ⟨-, R, rfl⟩, hlen, hkids, -⟩ := hs
      obtain ⟨c, kids, rfl⟩ := List.exists_cons_of_length_eq_add_one hlen
      exact congrArg (· + 1) (ih (hkids c List.mem_cons_self))

theorem BPlusNode.Shape.numKeys_le {order h : ℕ} {node : BPlusNode K V} {ts : List (Tok K V)}
    (hs : node.Shape order h ts) : node.numKeys ≤ order := by
  cases h with
  | zero =>
    cases node with
    | leaf id slots n next =>
      obtain ⟨es, hslots, rfl, -⟩ := hs
      exact hslots.length_le
    | inner slots n children => exact hs.elim
  | succ h =>
    cases node with
    | leaf id slots n next => exact hs.elim
    | inner slots n children =>
      obtain ⟨ss, -, hslots, rfl, -⟩ := hs
      exact hslots.length_le

private theorem exists_middle {α : Type} {l : List α} {m n : ℕ} (h : l.length = m + n + 1) :
    ∃ A c B, l = A ++ c :: B ∧ A.length = m ∧ B.length = n := by
  have hlt : m < l.length := by omega
  refine ⟨l.take m, l[m], l.drop (m + 1), ?_, ?_, ?_⟩
  · rw [← List.drop_eq_getElem_cons hlt, List.take_append_drop]
  · rw [List.length_take]
    omega
  · rw [List.length_drop]
    omega

/-- Putting the node together again, with another child in the same place. -/
theorem BPlusNode.Shape.of_child {order h n : ℕ} {slots : List (Option (K × V))}
    {children : List (Option (BPlusNode K V))} {SA SB : List (K × V)}
    {A B : List (BPlusNode K V × List (Tok K V))} {c : BPlusNode K V × List (Tok K V)}
    (hslots : Holds order slots (SA ++ SB)) (hn : (SA ++ SB).length = n)
    (hchildren : Holds (order + 1) children (A.map Prod.fst ++ c.1 :: B.map Prod.fst))
    (hA : A.length = SA.length) (hB : B.length = SB.length)
    (hkids : ∀ d ∈ A ++ c :: B, d.1.Shape order h d.2) :
    (BPlusNode.inner slots n children).Shape order (h + 1)
      (weaveL (A.map Prod.snd) (SA.map Prod.fst) ++ c.2 ++
        weaveR (SB.map Prod.fst) (B.map Prod.snd)) := by
  refine ⟨SA ++ SB, A ++ c :: B, hslots, hn, ?_, ?_, hkids, ?_⟩
  · rwa [List.map_append, List.map_cons]
  · rw [← hn, List.length_append, List.length_append, List.length_cons, hA, hB]
    rfl
  · rw [List.map_append, List.map_append, List.map_cons, weave_mid _ (by simpa using hA)]

/-- Exchanging one child. -/
theorem forall_mem_exchange {α : Type} {p : α → Prop} {A B : List α} {c c' : α}
    (h : ∀ d ∈ A ++ c :: B, p d) (hc' : p c') : ∀ d ∈ A ++ c' :: B, p d := by
  intro d hd
  rcases List.mem_append.mp hd with hd | hd
  · exact h d (List.mem_append_left _ hd)
  · rcases List.mem_cons.mp hd with rfl | hd
    · exact hc'
    · exact h d (List.mem_append_right _ (List.mem_cons_of_mem _ hd))

/-- Writing another child into its place. -/
theorem BPlusNode.Shape.write_child {order h n : ℕ} {slots : List (Option (K × V))}
    {children : List (Option (BPlusNode K V))} {SA SB : List (K × V)}
    {A B : List (BPlusNode K V × List (Tok K V))} {c d : BPlusNode K V × List (Tok K V)}
    (hslots : Holds order slots (SA ++ SB)) (hn : (SA ++ SB).length = n)
    (hchildren : Holds (order + 1) children (A.map Prod.fst ++ c.1 :: B.map Prod.fst))
    (hA : A.length = SA.length) (hB : B.length = SB.length)
    (hkids : ∀ x ∈ A ++ c :: B, x.1.Shape order h x.2) (hd : d.1.Shape order h d.2) :
    ∃ children', write children SA.length (some d.1) = some children' ∧
      (BPlusNode.inner slots n children').Shape order (h + 1)
        (weaveL (A.map Prod.snd) (SA.map Prod.fst) ++ d.2 ++
          weaveR (SB.map Prod.fst) (B.map Prod.snd)) := by
  obtain ⟨children', hwrite, hchildren'⟩ := hchildren.write d.1
  rw [List.length_map, hA] at hwrite
  exact ⟨children', hwrite, BPlusNode.Shape.of_child hslots hn hchildren' hA hB
    (forall_mem_exchange hkids hd)⟩

/-- A child in use. -/
theorem some_mem_take {order n : ℕ} {children : List (Option (BPlusNode K V))}
    {A B : List (BPlusNode K V)} {c : BPlusNode K V}
    (hchildren : Holds (order + 1) children (A ++ c :: B)) (hn : A.length + B.length = n) :
    some c ∈ children.take (n + 1) := by
  have htake := hchildren.take
  rw [List.length_append, List.length_cons, ← Nat.add_assoc, hn] at htake
  rw [htake]
  simp

theorem reduceOption_map_some {α : Type} (xs : List α) :
    (xs.map some).reduceOption = xs := by
  induction xs with
  | nil => rfl
  | cons x xs ih => rw [List.map_cons, List.reduceOption_cons_of_some, ih]

/-- Reading the pairs off the leaves. -/
theorem BPlusNode.Shape.pairs_eq {order : ℕ} : ∀ {h : ℕ} {node : BPlusNode K V}
    {ts : List (Tok K V)}, node.Shape order h ts → node.pairs h = entries ts := by
  intro h
  induction h with
  | zero =>
    intro node ts hs
    cases node with
    | inner slots n children => exact hs.elim
    | leaf id slots n next =>
      obtain ⟨es, hslots, rfl, rfl⟩ := hs
      rw [BPlusNode.pairs, hslots.take, reduceOption_map_some]
      simp
  | succ h ih =>
    intro node ts hs
    cases node with
    | leaf id slots n next => exact hs.elim
    | inner slots n children =>
      obtain ⟨ss, kids, -, rfl, hchildren, hlen, hkids, rfl⟩ := hs
      have htake := hchildren.take
      rw [List.length_map, hlen] at htake
      rw [BPlusNode.pairs, htake, reduceOption_map_some, entries_weave (by simpa using hlen),
        List.flatMap_map, List.flatMap_map]
      exact List.flatMap_congr fun c hc ↦ ih (hkids c hc)

/-- A key in use is a key of a leaf or a separator. -/
theorem mem_marks_of_read {order h : ℕ} {c : BPlusNode K V} {tc : List (Tok K V)} {i : ℕ} {kv : K × V}
    (hs : c.Shape order h tc) (hi : i < c.numKeys) (hread : read c.slots i = some kv) :
    .sep kv.1 ∈ marks tc ∨ .key kv.1 ∈ marks tc := by
  cases h with
  | zero =>
    cases c with
    | inner slots n children => exact hs.elim
    | leaf id slots n next =>
      obtain ⟨es, hslots, rfl, rfl⟩ := hs
      right
      have hget := hslots.read_of_getElem? (List.getElem?_eq_getElem hi)
      obtain rfl : es[i] = kv := Option.some.inj (hget.symm.trans hread)
      rw [key_mem_marks]
      refine ⟨es[i], ?_, rfl⟩
      rw [entries_cons_leaf]
      exact List.mem_append_left _ (List.getElem_mem hi)
  | succ h =>
    cases c with
    | leaf id slots n next => exact hs.elim
    | inner slots n children =>
      obtain ⟨ss, kids, hslots, rfl, -, hlen, -, rfl⟩ := hs
      left
      have hget := hslots.read_of_getElem? (List.getElem?_eq_getElem hi)
      obtain rfl : ss[i] = kv := Option.some.inj (hget.symm.trans hread)
      refine (sep_sublist_weave (by simpa using hlen)).mem (List.mem_map_of_mem ?_)
      exact List.mem_map_of_mem (List.getElem_mem hi)

section Search

variable [LinearOrder K] {order : ℕ} {key : K}

/-- The search loop stops behind the last key that is at most `key`. Of the keys before that one
it reads none. -/
theorem bPlusDescend_eq_of_last : ∀ {slots : List (Option (K × V))} {SA SB : List (K × V)},
    Holds order slots (SA ++ SB) → (∀ s, SA.getLast? = some s → s.1 ≤ key) →
    (∀ s ∈ SB, key < s.1) → bPlusDescend key slots (SA ++ SB).length = some SA.length := by
  intro slots SA SB
  induction SB using List.reverseRecOn with
  | nil =>
    intro hslots hSA _
    rw [List.append_nil] at hslots ⊢
    rcases List.eq_nil_or_concat SA with rfl | ⟨SA, s, rfl⟩
    · rfl
    · rw [List.concat_eq_append] at hslots hSA ⊢
      have hread : read slots SA.length = some s := hslots.read
      rw [List.length_append, List.length_singleton, bPlusDescend, hread, Option.bind_some,
        if_neg (not_lt.mpr (hSA s (by simp)))]
  | append_singleton SB s ih =>
    intro hslots hSA hSB
    rw [← List.append_assoc] at hslots ⊢
    have hread : read slots (SA ++ SB).length = some s := hslots.read
    rw [List.length_append, List.length_singleton, bPlusDescend, hread, Option.bind_some,
      if_pos (hSB s (by simp))]
    exact ih hslots.of_append hSA fun s' hs' ↦ hSB s' (List.mem_append_left _ hs')

theorem bPlusDescend_eq {slots : List (Option (K × V))} {SA SB : List (K × V)}
    (hslots : Holds order slots (SA ++ SB)) (hSA : ∀ s ∈ SA, s.1 ≤ key)
    (hSB : ∀ s ∈ SB, key < s.1) : bPlusDescend key slots (SA ++ SB).length = some SA.length :=
  bPlusDescend_eq_of_last hslots (fun s hs ↦ hSA s (List.mem_of_getLast? hs)) hSB

/-- An internal node, cut at the child in which to look for a key. -/
theorem BPlusNode.Shape.exists_child {h n : ℕ} {slots : List (Option (K × V))}
    {children : List (Option (BPlusNode K V))} {ts : List (Tok K V)}
    (hs : (BPlusNode.inner slots n children).Shape order (h + 1) ts) (hw : Weak ts) (key : K) :
    ∃ (SA SB : List (K × V)) (A B : List (BPlusNode K V × List (Tok K V)))
      (c : BPlusNode K V × List (Tok K V)),
      Holds order slots (SA ++ SB) ∧ (SA ++ SB).length = n ∧
      Holds (order + 1) children (A.map Prod.fst ++ c.1 :: B.map Prod.fst) ∧
      A.length = SA.length ∧ B.length = SB.length ∧ (∀ d ∈ A ++ c :: B, d.1.Shape order h d.2) ∧
      ts = weaveL (A.map Prod.snd) (SA.map Prod.fst) ++ c.2 ++
        weaveR (SB.map Prod.fst) (B.map Prod.snd) ∧
      (∀ s ∈ SA, s.1 ≤ key) ∧ (∀ s ∈ SB, key < s.1) := by
  obtain ⟨ss, kids, hslots, rfl, hchildren, hlen, hkids, rfl⟩ := hs
  have hsorted : ss.Pairwise fun a b ↦ a.1 ≤ b.1 := by
    have := hw.sublist (sep_sublist_weave (by simpa using hlen))
    rw [List.map_map, List.pairwise_map] at this
    exact this
  obtain ⟨SA, SB, rfl, hSA, hSB⟩ := exists_cut key hsorted
  rw [List.length_append] at hlen
  obtain ⟨A, c, B, rfl, hA, hB⟩ := exists_middle hlen
  rw [List.map_append, List.map_cons] at hchildren
  refine ⟨SA, SB, A, B, c, hslots, rfl, hchildren, hA, hB, hkids, ?_, hSA, hSB⟩
  rw [List.map_append, List.map_append, List.map_cons, weave_mid _ (by simpa using hA)]

/-- An internal node and the child in which the source looks for a key, whatever the order of the
separators: the scan from the right has stopped before the ones in `SB`. -/
structure BPlusAimed (order h : ℕ) (key : K) (slots : List (Option (K × V))) (n : ℕ)
    (children : List (Option (BPlusNode K V))) (SA SB : List (K × V))
    (A B : List (BPlusNode K V × List (Tok K V))) (c : BPlusNode K V × List (Tok K V)) : Prop where
  slots : Holds order slots (SA ++ SB)
  length : (SA ++ SB).length = n
  children : Holds (order + 1) children (A.map Prod.fst ++ c.1 :: B.map Prod.fst)
  lengthA : A.length = SA.length
  lengthB : B.length = SB.length
  kids : ∀ d ∈ A ++ c :: B, d.1.Shape order h d.2
  below : ∀ s, SA.getLast? = some s → s.1 ≤ key
  above : ∀ s ∈ SB, key < s.1

/-- A list cut behind the last key that is at most `key`. -/
theorem exists_cut_last (key : K) (ss : List (K × V)) :
    ∃ SA SB, ss = SA ++ SB ∧ (∀ s, SA.getLast? = some s → s.1 ≤ key) ∧ ∀ s ∈ SB, key < s.1 := by
  induction ss using List.reverseRecOn with
  | nil => exact ⟨[], [], rfl, by simp, by simp⟩
  | append_singleton ss s ih =>
    by_cases hs : key < s.1
    · obtain ⟨SA, SB, rfl, hSA, hSB⟩ := ih
      refine ⟨SA, SB ++ [s], by rw [List.append_assoc], hSA, ?_⟩
      exact List.forall_mem_append.mpr ⟨hSB, by simpa using hs⟩
    · exact ⟨ss ++ [s], [], by rw [List.append_nil], by simpa using hs, by simp⟩

theorem BPlusNode.Shape.exists_aimed {h n : ℕ} {slots : List (Option (K × V))}
    {children : List (Option (BPlusNode K V))} {ts : List (Tok K V)}
    (hs : (BPlusNode.inner slots n children).Shape order (h + 1) ts) (key : K) :
    ∃ SA SB A B c, BPlusAimed order h key slots n children SA SB A B c := by
  obtain ⟨ss, kids, hslots, rfl, hchildren, hlen, hkids, -⟩ := hs
  obtain ⟨SA, SB, rfl, hSA, hSB⟩ := exists_cut_last key ss
  rw [List.length_append] at hlen
  obtain ⟨A, c, B, rfl, hA, hB⟩ := exists_middle hlen
  rw [List.map_append, List.map_cons] at hchildren
  exact ⟨SA, SB, A, B, c, hslots, rfl, hchildren, hA, hB, hkids, hSA, hSB⟩

namespace BPlusAimed

variable {h n : ℕ} {slots : List (Option (K × V))} {children : List (Option (BPlusNode K V))}
  {SA SB : List (K × V)} {A B : List (BPlusNode K V × List (Tok K V))}
  {c : BPlusNode K V × List (Tok K V)}

theorem descend (haim : BPlusAimed order h key slots n children SA SB A B c) :
    bPlusDescend key slots n = some SA.length :=
  haim.length ▸ bPlusDescend_eq_of_last haim.slots haim.below haim.above

theorem read_child (haim : BPlusAimed order h key slots n children SA SB A B c) :
    read children SA.length = some c.1 := by
  have := haim.children.read
  rwa [List.length_map, haim.lengthA] at this

theorem shape_child (haim : BPlusAimed order h key slots n children SA SB A B c) :
    c.1.Shape order h c.2 :=
  haim.kids c (by simp)

/-- Exchanging the child for one that reads something else. -/
theorem exchange (haim : BPlusAimed order h key slots n children SA SB A B c) {c' : BPlusNode K V}
    {tc' : List (Tok K V)} (hc' : c'.Shape order h tc') :
    ∃ children', write children SA.length (some c') = some children' ∧
      (BPlusNode.inner slots n children').Shape order (h + 1)
        (weaveL (A.map Prod.snd) (SA.map Prod.fst) ++ tc' ++
          weaveR (SB.map Prod.fst) (B.map Prod.snd)) :=
  BPlusNode.Shape.write_child (d := (c', tc')) haim.slots haim.length haim.children haim.lengthA
    haim.lengthB haim.kids hc'

end BPlusAimed

/-- What `private_b_plus_tree_find` returns for a node that reads `ts`: the search ends in one leaf,
and the last of its keys that are at most `key` decides. -/
structure BPlusFound (order h : ℕ) (key : K) (node : BPlusNode K V) (ts P Q : List (Tok K V))
    (l : Leaf K V) (X Y : List (K × V)) : Prop where
  sought : Sought key ts P Q l X Y
  result : (privateBPlusTreeFind key h node = some none ∧ ∀ x, X.getLast? = some x → x.1 ≠ key) ∨
    ∃ X' v p, X = X' ++ [(key, v)] ∧ privateBPlusTreeFind key h node = some (some p) ∧
      bPlusLoad p.slot p.path node = some v ∧
      ∀ v', ∃ node', bPlusStore p.slot v' p.path node = some node' ∧
        node'.Shape order h (P ++ .leaf { l with entries := X' ++ (key, v') :: Y } :: Q)

theorem privateBPlusTreeFind_leaf {id n : ℕ} {slots : List (Option (K × V))} {next : Option ℕ}
    {es : List (K × V)} (hslots : Holds order slots es) (hn : es.length = n)
    (hsorted : es.Pairwise fun a b ↦ a.1 ≤ b.1) (key : K) :
    ∃ X Y, BPlusFound order 0 key (.leaf id slots n next) [.leaf ⟨id, es, next⟩] [] []
      ⟨id, es, next⟩ X Y := by
  obtain ⟨X, Y, rfl, hX, hY⟩ := exists_cut key hsorted
  refine ⟨X, Y, ⟨rfl, rfl, ⟨by simp, by simp, Or.inl rfl⟩, hX, hY⟩, ?_⟩
  have hdesc : bPlusDescend key slots n = some X.length := hn ▸ bPlusDescend_eq hslots hX hY
  rcases List.eq_nil_or_concat X with rfl | ⟨X, x, rfl⟩
  · left
    exact ⟨by rw [privateBPlusTreeFind, hdesc]; rfl, by simp⟩
  · rw [List.concat_eq_append] at hslots hdesc hn ⊢
    rw [List.append_assoc, List.singleton_append] at hslots hn
    rw [List.length_append, List.length_singleton] at hdesc
    have hread : read slots X.length = some x := hslots.read
    have hfind : privateBPlusTreeFind key 0 (.leaf id slots n next) =
        some (if key = x.1 then some ⟨[], X.length⟩ else none) := by
      rw [privateBPlusTreeFind, hdesc, Option.bind_some]
      simp only [hread, Option.map_some]
    by_cases hx : key = x.1
    · right
      obtain ⟨k, v⟩ := x
      obtain rfl : key = k := hx
      refine ⟨X, v, ⟨[], X.length⟩, rfl, by rw [hfind, if_pos rfl],
        by rw [bPlusLoad, hread, Option.map_some], fun v' ↦ ?_⟩
      obtain ⟨slots', hwrite, hslots'⟩ := hslots.write (key, v')
      refine ⟨.leaf id slots' n next, ?_, X ++ (key, v') :: Y, hslots', ?_, rfl⟩
      · rw [bPlusStore, hread, Option.bind_some, hwrite, Option.map_some]
      · rw [← hn, List.length_append, List.length_append, List.length_cons, List.length_cons]
    · left
      refine ⟨by rw [hfind, if_neg hx], fun y hy ↦ ?_⟩
      rw [List.getLast?_concat, Option.some.injEq] at hy
      exact fun h ↦ hx (by rw [hy, h])

/-- **The search of the source on a tree of any height.** -/
theorem privateBPlusTreeFind_spec (key : K) : ∀ {h : ℕ} {node : BPlusNode K V} {ts : List (Tok K V)},
    node.Shape order h ts → Weak ts →
    ∃ P Q l X Y, BPlusFound order h key node ts P Q l X Y := by
  intro h
  induction h with
  | zero =>
    intro node ts hs hw
    cases node with
    | inner slots n children => exact hs.elim
    | leaf id slots n next =>
      obtain ⟨es, hslots, hn, rfl⟩ := hs
      have hsorted : es.Pairwise fun a b ↦ a.1 ≤ b.1 := by
        rw [Weak, marks_cons_leaf, marks_nil, List.append_nil, keyMarks, List.pairwise_map] at hw
        exact hw
      obtain ⟨X, Y, hfound⟩ := privateBPlusTreeFind_leaf hslots hn hsorted key
      exact ⟨[], [], _, X, Y, hfound⟩
  | succ h ih =>
    intro node ts hs hw
    cases node with
    | leaf id slots n next => exact hs.elim
    | inner slots n children =>
      obtain ⟨SA, SB, A, B, c, hslots, hn, hchildren, hA, hB, hkids, rfl, hSA, hSB⟩ :=
        hs.exists_child hw key
      obtain ⟨hwA, hwc, hwB⟩ := weak_append₃ hw
      have hc := hkids c (by simp)
      obtain ⟨P, Q, l, X, Y, hfound⟩ := ih hc hwc
      have hsought := hfound.sought
      have hdesc : bPlusDescend key slots n = some SA.length := hn ▸ bPlusDescend_eq hslots hSA hSB
      have hread : read children SA.length = some c.1 := by
        rw [← hA, ← List.length_map (f := Prod.fst)]
        exact hchildren.read
      refine ⟨weaveL (A.map Prod.snd) (SA.map Prod.fst) ++ P,
        Q ++ weaveR (SB.map Prod.fst) (B.map Prod.snd), l, X, Y,
        ⟨by rw [hsought.toks]; simp, hsought.entries, ?_, hsought.below, hsought.above⟩, ?_⟩
      · refine hsought.located.weave (by simpa using hA) (by simpa using hB) hwA hwB ?_ ?_
        · simpa using fun a b hab ↦ hSA (a, b) hab
        · simpa using fun a b hab ↦ hSB (a, b) hab
      · have hfind : privateBPlusTreeFind key (h + 1) (.inner slots n children) =
            (privateBPlusTreeFind key h c.1).map
              fun p ↦ p.map fun p ↦ ⟨SA.length :: p.path, p.slot⟩ := by
          rw [privateBPlusTreeFind, hdesc, Option.bind_some, hread, Option.bind_some]
        rcases hfound.result with ⟨hnone, hne⟩ | ⟨X', v, p, hX', hsome, hload, hstore⟩
        · exact Or.inl ⟨by rw [hfind, hnone]; rfl, hne⟩
        · refine Or.inr ⟨X', v, ⟨SA.length :: p.path, p.slot⟩, hX', by rw [hfind, hsome]; rfl,
            by rw [bPlusLoad, hread, Option.bind_some, hload], fun v' ↦ ?_⟩
          obtain ⟨c', hstore, hc'⟩ := hstore v'
          obtain ⟨children', hwrite, hshape⟩ :=
            BPlusNode.Shape.write_child (d := (c', _)) hslots hn hchildren hA hB hkids hc'
          refine ⟨.inner slots n children', ?_, by simpa using hshape⟩
          rw [bPlusStore, hread, Option.bind_some, hstore, Option.bind_some, hwrite,
            Option.map_some]

end Search

/-! ## Splitting -/

section Insert

variable [LinearOrder K] {order : ℕ} {key : K}

/-- Some full node below this one has `key` as its middle key. -/
def bPlusTie (order : ℕ) (key : K) : (fuel : ℕ) → BPlusNode K V → Bool
  | fuel + 1, .inner _ n children => (children.take (n + 1)).any fun c ↦
    match c with
    | none => false
    | some c =>
      (c.numKeys = order ∧ (read c.slots (order / 2)).any fun kv ↦ kv.1 = key) ||
        bPlusTie order key fuel c
  | _, _ => false

/-- A tie at or below one child is a tie below the node. -/
theorem bPlusTie_inner {h n : ℕ} {slots : List (Option (K × V))}
    {children : List (Option (BPlusNode K V))} {c : BPlusNode K V}
    (hc : some c ∈ children.take (n + 1))
    (htie : (c.numKeys = order ∧ (read c.slots (order / 2)).any fun kv ↦ kv.1 = key) ∨
      bPlusTie order key h c = true) :
    bPlusTie order key (h + 1) (.inner slots n children) = true := by
  rw [bPlusTie, List.any_eq_true]
  exact ⟨some c, hc, by simpa using htie⟩

theorem bPlusTie_zero (node : BPlusNode K V) : bPlusTie order key 0 node = false := by
  cases node <;> rfl

/-- A node whose children in use are among those of another has no tie that the other has not. -/
theorem bPlusTie_mono {h n m : ℕ} {slots slots' : List (Option (K × V))}
    {children children' : List (Option (BPlusNode K V))}
    (hsub : ∀ c, c ∈ children.take (n + 1) → c ∈ children'.take (m + 1))
    (htie : bPlusTie order key h (.inner slots n children) = true) :
    bPlusTie order key h (.inner slots' m children') = true := by
  cases h with
  | zero => exact absurd htie (by rw [bPlusTie_zero]; exact Bool.false_ne_true)
  | succ h =>
    rw [bPlusTie, List.any_eq_true] at htie ⊢
    obtain ⟨c, hc, hcond⟩ := htie
    exact ⟨c, hsub c hc, hcond⟩

/-- A tie is with a key or a separator of the tree. -/
theorem mem_marks_of_bPlusTie (hord : 2 ≤ order) : ∀ {h : ℕ} {node : BPlusNode K V}
    {ts : List (Tok K V)}, node.Shape order h ts → bPlusTie order key h node = true →
    .sep key ∈ marks ts ∨ .key key ∈ marks ts := by
  intro h
  induction h with
  | zero =>
    intro node ts _ htie
    exact absurd htie (by rw [bPlusTie_zero]; exact Bool.false_ne_true)
  | succ h ih =>
    intro node ts hs htie
    cases node with
    | leaf id slots n next => exact hs.elim
    | inner slots n children =>
      obtain ⟨ss, kids, -, rfl, hchildren, hlen, hkids, rfl⟩ := hs
      have htake := hchildren.take
      rw [List.length_map, hlen] at htake
      rw [bPlusTie, htake, List.map_map, List.any_eq_true] at htie
      obtain ⟨_, hmem, hcond⟩ := htie
      obtain ⟨c, hc, rfl⟩ := List.mem_map.mp hmem
      have hup : ∀ m ∈ marks c.2, m ∈ marks (weave (kids.map Prod.snd) (ss.map Prod.fst)) :=
        fun m hm ↦ (marks_sublist_weave (by simpa using hlen) (List.mem_map_of_mem hc)).mem hm
      simp only [Function.comp_apply, Bool.or_eq_true, decide_eq_true_eq] at hcond
      rcases hcond with ⟨hfull, hmid⟩ | hbelow
      · obtain ⟨kv, hread, hkv⟩ := (Option.any_eq_true _ _).mp hmid
        obtain rfl := of_decide_eq_true hkv
        exact (mem_marks_of_read (hkids c hc) (by omega) hread).imp (hup _) (hup _)
      · exact (ih (hkids c hc) hbelow).imp (hup _) (hup _)

/-- What a full child is split into. -/
structure BPlusSplitResult (order h fresh : ℕ) (c : BPlusNode K V) (tc : List (Tok K V))
    (l r : BPlusNode K V) (tl tr : List (Tok K V)) (sep : K × V) : Prop where
  left : l.Shape order h tl
  right : r.Shape order h tr
  read_left : read l.slots (order / 2) = some sep
  read_child : read c.slots (order / 2) = some sep
  left_pos : l.numKeys ≠ 0
  left_lt : l.numKeys < order
  right_lt : r.numKeys < order
  split : Split order ⟨tc, fresh⟩ ⟨tl ++ .sep sep.1 :: tr, fresh + 1⟩
  tie : ∀ key, bPlusTie order key h l = true ∨ bPlusTie order key h r = true →
    bPlusTie order key h c = true

theorem bPlusSplitChild_leaf (hord : 2 ≤ order) {id n : ℕ} {slots : List (Option (K × V))}
    {next : Option ℕ} {es : List (K × V)} (hslots : Holds order slots es) (hn : es.length = n)
    (hfull : n = order) (fresh : ℕ) :
    ∃ l r tl tr sep, bPlusSplitChild order fresh (.leaf id slots n next) = some (l, r) ∧
      BPlusSplitResult order 0 fresh (.leaf id slots n next) [.leaf ⟨id, es, next⟩] l r tl tr
        sep := by
  have hlen : es.length = order := hn.trans hfull
  set X := es.take ((order + 1) / 2) with hX
  set Y := es.drop ((order + 1) / 2) with hY
  have hes : es = X ++ Y := (List.take_append_drop _ es).symm
  have hXlen : X.length = (order + 1) / 2 := by
    rw [hX, List.length_take]
    omega
  have hYlen : Y.length = order / 2 := by
    rw [hY, List.length_drop]
    omega
  rw [hes] at hslots
  obtain ⟨newSlots, hcopy, hnew⟩ := SlotArray.Holds.copy (X := X) (Y := Y) (Z := [])
    (by rwa [List.append_nil]) (Holds.replicate (α := K × V) order)
    (by rw [List.length_nil, hYlen]; omega)
  rw [List.length_nil, hXlen, hYlen] at hcopy
  have hmid : order / 2 < es.length := by omega
  have hget : (X ++ Y)[order / 2]? = some es[order / 2] := by
    rw [← hes]
    exact List.getElem?_eq_getElem hmid
  have hread : read slots (order / 2) = some es[order / 2] := hslots.read_of_getElem? hget
  refine ⟨.leaf id slots ((order + 1) / 2) (some fresh), .leaf fresh newSlots (order / 2) next,
    [.leaf ⟨id, X, some fresh⟩], [.leaf ⟨fresh, Y, next⟩], es[order / 2], ?_,
    ⟨X, hslots.of_append, hXlen, rfl⟩, ⟨Y, by simpa using hnew, hYlen, rfl⟩, hread, hread, ?_, ?_,
    ?_, ?_, ?_⟩
  · rw [bPlusSplitChild, hcopy, Option.map_some]
  · simp only [BPlusNode.numKeys]
    omega
  · simp only [BPlusNode.numKeys]
    omega
  · simp only [BPlusNode.numKeys]
    omega
  · exact Split.leaf [] [] ⟨id, es, next⟩ X Y es[order / 2] fresh hes hXlen hYlen hget
  · rintro key (h | h) <;> exact absurd h Bool.false_ne_true

theorem bPlusSplitChild_inner (hord : 2 ≤ order) {h n : ℕ} {slots : List (Option (K × V))}
    {children : List (Option (BPlusNode K V))} {tc : List (Tok K V)}
    (hs : (BPlusNode.inner slots n children).Shape order (h + 1) tc) (hfull : n = order)
    (fresh : ℕ) :
    ∃ l r tl tr sep, bPlusSplitChild order fresh (.inner slots n children) = some (l, r) ∧
      BPlusSplitResult order (h + 1) fresh (.inner slots n children) tc l r tl tr sep := by
  obtain ⟨ss, kids, hslots, hn, hchildren, hlen, hkids, rfl⟩ := hs
  obtain ⟨S₁, m, S₂, rfl, hS₁, hS₂⟩ :=
    exists_middle (l := ss) (m := order / 2) (n := (order - 1) / 2) (by omega)
  set K₁ := kids.take (order / 2 + 1) with hK₁
  set K₂ := kids.drop (order / 2 + 1) with hK₂
  have hkidsEq : kids = K₁ ++ K₂ := (List.take_append_drop _ kids).symm
  have hK₁len : K₁.length = order / 2 + 1 := by
    rw [hK₁, List.length_take]
    omega
  have hK₂len : K₂.length = (order + 1) / 2 := by
    rw [hK₂, List.length_drop]
    omega
  rw [hkidsEq, List.map_append] at hchildren
  obtain ⟨newChildren, hcopyC, hnewC⟩ := SlotArray.Holds.copy (X := K₁.map Prod.fst)
    (Y := K₂.map Prod.fst) (Z := []) (by rwa [List.append_nil])
    (Holds.replicate (α := BPlusNode K V) (order + 1)) (by simp; omega)
  rw [List.length_nil, List.length_map, List.length_map, hK₁len, hK₂len] at hcopyC
  obtain ⟨newSlots, hcopyS, hnewS⟩ := SlotArray.Holds.copy (X := S₁ ++ [m]) (Y := S₂) (Z := [])
    (by simpa using hslots) (Holds.replicate (α := K × V) order) (by simp; omega)
  rw [List.length_nil, List.length_append, List.length_singleton, hS₁, hS₂] at hcopyS
  have hread : read slots (order / 2) = some m := hS₁ ▸ hslots.read
  have hcut : weave (kids.map Prod.snd) ((S₁ ++ m :: S₂).map Prod.fst) =
      weave (K₁.map Prod.snd) (S₁.map Prod.fst) ++
        .sep m.1 :: weave (K₂.map Prod.snd) (S₂.map Prod.fst) := by
    rw [hkidsEq, List.map_append, List.map_append, List.map_cons]
    refine weave_append m.1 (by simp [hK₁len, hS₁]) ?_
    intro hnil
    rw [List.map_eq_nil_iff] at hnil
    rw [hnil, List.length_nil] at hK₂len
    omega
  refine ⟨.inner slots (order / 2) children, .inner newSlots ((order - 1) / 2) newChildren,
    weave (K₁.map Prod.snd) (S₁.map Prod.fst), weave (K₂.map Prod.snd) (S₂.map Prod.fst), m, ?_,
    ⟨S₁, K₁, hslots.of_append, hS₁, hchildren.of_append, hK₁len, ?_, rfl⟩,
    ⟨S₂, K₂, by simpa using hnewS, hS₂, by simpa using hnewC, ?_, ?_, rfl⟩, hread, hread, ?_, ?_, ?_,
    ?_, ?_⟩
  · rw [bPlusSplitChild, hcopyC, Option.bind_some, hcopyS, Option.map_some]
  · exact fun c hc ↦ hkids c (List.mem_of_mem_take hc)
  · rw [hK₂len]
    omega
  · exact fun c hc ↦ hkids c (List.mem_of_mem_drop hc)
  · simp only [BPlusNode.numKeys]
    omega
  · simp only [BPlusNode.numKeys]
    omega
  · simp only [BPlusNode.numKeys]
    omega
  · rw [hcut]
    exact Split.inner _ _
  · -- the children of both halves are children of the node
    have hall : children.take (n + 1) = (K₁.map Prod.fst ++ K₂.map Prod.fst).map some := by
      have := hchildren.take
      rwa [← List.map_append, List.length_map, ← hkidsEq, hlen, hkidsEq, List.map_append] at this
    have hleft : children.take (order / 2 + 1) = (K₁.map Prod.fst).map some := by
      have := hchildren.of_append.take
      rwa [List.length_map, hK₁len] at this
    have hright : newChildren.take ((order - 1) / 2 + 1) = (K₂.map Prod.fst).map some := by
      have := hnewC.take
      rwa [List.nil_append, List.length_map, hK₂len,
        show (order + 1) / 2 = (order - 1) / 2 + 1 by omega] at this
    rintro key (htie | htie)
    · refine bPlusTie_mono (fun c hc ↦ ?_) htie
      rw [hleft] at hc
      rw [hall, List.map_append]
      exact List.mem_append_left _ hc
    · refine bPlusTie_mono (fun c hc ↦ ?_) htie
      rw [hright] at hc
      rw [hall, List.map_append]
      exact List.mem_append_right _ hc

theorem bPlusSplitChild_spec (hord : 2 ≤ order) {h : ℕ} {c : BPlusNode K V} {tc : List (Tok K V)}
    (hs : c.Shape order h tc) (hfull : c.numKeys = order) (fresh : ℕ) :
    ∃ l r tl tr sep, bPlusSplitChild order fresh c = some (l, r) ∧
      BPlusSplitResult order h fresh c tc l r tl tr sep := by
  cases h with
  | zero =>
    cases c with
    | inner slots n children => exact hs.elim
    | leaf id slots n next =>
      obtain ⟨es, hslots, hn, rfl⟩ := hs
      exact bPlusSplitChild_leaf hord hslots hn hfull fresh
  | succ h =>
    cases c with
    | leaf id slots n next => exact hs.elim
    | inner slots n children => exact bPlusSplitChild_inner hord hs hfull fresh

/-- Splitting a full child of a node that is not full. Every write stays inside its array. -/
theorem bPlusTreeNodeSplit_spec (hord : 2 ≤ order) (env : BPlusEnv) {h n : ℕ}
    {slots : List (Option (K × V))} {children : List (Option (BPlusNode K V))}
    {SA SB : List (K × V)} {A B : List (BPlusNode K V)} {c : BPlusNode K V} {tc : List (Tok K V)}
    (hslots : Holds order slots (SA ++ SB)) (hn : (SA ++ SB).length = n) (hlt : n < order)
    (hchildren : Holds (order + 1) children (A ++ c :: B)) (hA : A.length = SA.length)
    (hB : B.length = SB.length) (hc : c.Shape order h tc) (hfull : c.numKeys = order) :
    ∃ l r tl tr sep slots' children',
      bPlusTreeNodeSplit order env slots n children c SA.length =
        some (⟨env.fresh + 1, env.splits ++ [(n, order)]⟩, slots', n + 1, children') ∧
      BPlusSplitResult order h env.fresh c tc l r tl tr sep ∧
      Holds order slots' (SA ++ sep :: SB) ∧
      Holds (order + 1) children' (A ++ l :: r :: B) := by
  obtain ⟨l, r, tl, tr, sep, hsplit, hres⟩ := bPlusSplitChild_spec hord hc hfull env.fresh
  have hrest : n - SA.length = SB.length := by
    rw [← hn, List.length_append]
    omega
  obtain ⟨children₁, hwrite₁, hchildren₁⟩ := hchildren.write l
  obtain ⟨slots₁, slots₂, hshift, hwrite, hslots₂⟩ := hslots.insert (hn.trans_lt hlt) sep
  obtain ⟨children₂, children₃, hshiftC, hwriteC, hchildren₃⟩ :=
    SlotArray.Holds.insert (X := A ++ [l]) (Y := B) (by simpa using hchildren₁)
      (by rw [← hn] at hlt; simp at hlt ⊢; omega) r
  rw [List.length_append, List.length_singleton, hA, hB] at hshiftC
  rw [List.length_append, List.length_singleton, hA] at hwriteC
  rw [hA] at hwrite₁
  refine ⟨l, r, tl, tr, sep, slots₂, children₃, ?_, hres, hslots₂, by simpa using hchildren₃⟩
  rw [bPlusTreeNodeSplit, hsplit]
  simp only [Option.bind_eq_bind, Option.bind_some, hwrite₁, hrest, hshift, hshiftC, hwriteC,
    if_neg hres.left_pos, hres.read_left, hwrite, hfull]
  rfl

/-! ## Inserting -/

/-- The loop that makes room in a leaf and the write behind it. -/
theorem bPlusLeafInsert_eq (key : K) (data : V) (X : List (K × V))
    (hX : ∀ x, X.getLast? = some x → x.1 ≤ key) :
    ∀ (Y : List (K × V)) (z : Option (K × V)) (R : List (Option (K × V))), (∀ y ∈ Y, key < y.1) →
      bPlusLeafInsert key data (X ++ Y).length ((X ++ Y).map some ++ z :: R) =
        some ((X ++ (key, data) :: Y).map some ++ R) := by
  intro Y
  induction Y using List.reverseRecOn with
  | nil =>
    intro z R _
    rw [List.append_nil]
    have hwrite : ∀ z' : Option (K × V), write (X.map some ++ z :: R) X.length z' =
        some (X.map some ++ z' :: R) := by
      intro z'
      have := write_mid (X.map some) R z z'
      rwa [List.length_map] at this
    rcases List.eq_nil_or_concat X with rfl | ⟨X, x, rfl⟩
    · rfl
    · rw [List.concat_eq_append] at hX hwrite ⊢
      have hread : read ((X ++ [x]).map some ++ z :: R) X.length = some x :=
        read_map_some (by simp) _
      rw [List.length_append, List.length_singleton] at hwrite ⊢
      rw [bPlusLeafInsert, hread, Option.bind_some, if_neg (not_lt.mpr (hX x (by simp))), hwrite]
      simp
  | append_singleton Y y ih =>
    intro z R hY
    have hread : read ((X ++ (Y ++ [y])).map some ++ z :: R) (X ++ Y).length = some y :=
      read_map_some (by rw [← List.append_assoc]; simp) _
    have hwrite : write ((X ++ (Y ++ [y])).map some ++ z :: R) ((X ++ Y).length + 1) (some y) =
        some ((X ++ Y).map some ++ some y :: some y :: R) := by
      have := write_mid ((X ++ Y ++ [y]).map some) R z (some y)
      rw [List.length_map, List.length_append, List.length_singleton] at this
      simpa using this
    have hlen : (X ++ (Y ++ [y])).length = (X ++ Y).length + 1 := by simp; omega
    rw [hlen, bPlusLeafInsert, hread, Option.bind_some, if_pos (hY y (by simp)), hwrite,
      Option.bind_some, ih (some y) (some y :: R) fun y' hy' ↦ hY y' (List.mem_append_left _ hy')]
    simp

/-- What `b_plus_tree_node_insert` returns for a node that reads `ts`. -/
structure BPlusInserted (order h : ℕ) (key : K) (data : V) (env : BPlusEnv) (node : BPlusNode K V)
    (ts : List (Tok K V)) (env' : BPlusEnv) (node' : BPlusNode K V) (ts' : List (Tok K V)) :
    Prop where
  run : bPlusTreeNodeInsert order key data h env node = some (env', node')
  shape : node'.Shape order h ts'
  grow : Grow order key data (bPlusTie order key h node = true ∨ .key key ∈ marks ts)
    ⟨ts, env.fresh⟩ ⟨ts', env'.fresh⟩
  log : ∃ log, env'.splits = env.splits ++ log ∧ ∀ p ∈ log, p.1 < order ∧ p.2 = order

theorem bPlusTreeNodeInsert_leaf (key : K) (data : V) (env : BPlusEnv) {id n : ℕ}
    {slots : List (Option (K × V))} {next : Option ℕ} {ts : List (Tok K V)}
    (hs : (BPlusNode.leaf id slots n next).Shape order 0 ts) (hlt : n < order) (hw : Weak ts) :
    ∃ env' node' ts', BPlusInserted order 0 key data env (.leaf id slots n next) ts env' node'
      ts' := by
  obtain ⟨es, hslots, hn, rfl⟩ := hs
  have hsorted : es.Pairwise fun a b ↦ a.1 ≤ b.1 := by
    rw [Weak, marks_cons_leaf, marks_nil, List.append_nil, keyMarks, List.pairwise_map] at hw
    exact hw
  obtain ⟨X, Y, rfl, hX, hY⟩ := exists_cut key hsorted
  have hroom : (X ++ Y).length < order := hn.trans_lt hlt
  obtain ⟨z, R, rfl⟩ := hslots.exists_free hroom
  have hins := bPlusLeafInsert_eq key data X (fun x hx ↦ hX x (List.mem_of_getLast? hx)) Y z R hY
  refine ⟨env, .leaf id ((X ++ (key, data) :: Y).map some ++ R) (n + 1) next,
    [.leaf ⟨id, X ++ (key, data) :: Y, next⟩], ?_, ⟨X ++ (key, data) :: Y, ⟨?_, R, rfl⟩, ?_, rfl⟩,
    ⟨_, .refl, rfl, ?_⟩, [], by simp, by simp⟩
  · rw [bPlusTreeNodeInsert, ← hn, hins, Option.map_some]
  · have hcap := hslots.1
    simp only [List.length_append, List.length_map, List.length_cons] at hcap ⊢
    omega
  · simp only [List.length_append, List.length_cons] at hn ⊢
    omega
  · exact LeafSeq.Insert.mk [] [] ⟨id, X ++ Y, next⟩ X Y rfl hroom (by simp) hX hY (by simp) (by simp)

/-- Insertion below a node goes into one of its children, at a place that its separators
justify. -/
theorem bPlusInserted_of_child (tie : Prop) {h n : ℕ} {data : V} {env₀ env' : BPlusEnv}
    {slots : List (Option (K × V))} {children : List (Option (BPlusNode K V))}
    {SA SB : List (K × V)} {A B : List (BPlusNode K V × List (Tok K V))}
    {c : BPlusNode K V × List (Tok K V)} {c' : BPlusNode K V} {tc' : List (Tok K V)}
    (hslots : Holds order slots (SA ++ SB)) (hn : (SA ++ SB).length = n)
    (hchildren : Holds (order + 1) children (A.map Prod.fst ++ c.1 :: B.map Prod.fst))
    (hA : A.length = SA.length) (hB : B.length = SB.length)
    (hkids : ∀ d ∈ A ++ c :: B, d.1.Shape order h d.2)
    (hw : Weak (weaveL (A.map Prod.snd) (SA.map Prod.fst) ++ c.2 ++
      weaveR (SB.map Prod.fst) (B.map Prod.snd)))
    (hSA : ∀ s ∈ SA, s.1 ≤ key) (hSB : ∀ s ∈ SB, key ≤ s.1)
    (hstrict : ¬tie → ∀ s ∈ SB, key < s.1)
    (hins : BPlusInserted order h key data env₀ c.1 c.2 env' c' tc')
    (htie : bPlusTie order key h c.1 = true ∨ .key key ∈ marks c.2 → tie) :
    ∃ children' ts', write children SA.length (some c') = some children' ∧
      (BPlusNode.inner slots n children').Shape order (h + 1) ts' ∧
      Grow order key data tie
        ⟨weaveL (A.map Prod.snd) (SA.map Prod.fst) ++ c.2 ++
          weaveR (SB.map Prod.fst) (B.map Prod.snd), env₀.fresh⟩ ⟨ts', env'.fresh⟩ := by
  obtain ⟨hwA, -, hwB⟩ := weak_append₃ hw
  obtain ⟨children', hwrite, hshape⟩ :=
    BPlusNode.Shape.write_child (d := (c', tc')) hslots hn hchildren hA hB hkids hins.shape
  refine ⟨children', _, hwrite, hshape, hins.grow.context htie ?_ ?_ fun hnt x hx ↦ ?_⟩
  · refine val_le_of_weaveL (by simpa using hA) hwA fun s hs ↦ ?_
    obtain ⟨x, hx, rfl⟩ := List.mem_map.mp hs
    exact hSA x hx
  · refine le_val_of_weaveR (by simpa using hB) hwB fun s hs ↦ ?_
    obtain ⟨x, hx, rfl⟩ := List.mem_map.mp hs
    exact hSB x hx
  · refine lt_val_of_weaveR (by simpa using hB) hwB (fun s hs ↦ ?_) (.sep x) hx
    obtain ⟨y, hy, rfl⟩ := List.mem_map.mp hs
    exact hstrict hnt y hy

section Aimed

variable {h n : ℕ} {data : V} {env env' : BPlusEnv} {slots slots' : List (Option (K × V))}
  {children children' : List (Option (BPlusNode K V))} {SA SB : List (K × V)}
  {A B : List (BPlusNode K V × List (Tok K V))} {c : BPlusNode K V × List (Tok K V)} {ts : List (Tok K V)}

/-- There is room in the child. -/
theorem BPlusAimed.insert_eq_of_room (haim : BPlusAimed order h key slots n children SA SB A B c)
    (hroom : c.1.numKeys ≠ order) {c' : BPlusNode K V}
    (hins : bPlusTreeNodeInsert order key data h env c.1 = some (env', c'))
    (hwrite : write children SA.length (some c') = some children') :
    bPlusTreeNodeInsert order key data (h + 1) env (.inner slots n children) =
      some (env', .inner slots n children') := by
  rw [bPlusTreeNodeInsert, haim.descend]
  simp only [Option.bind_eq_bind, Option.bind_some, haim.read_child, if_neg hroom, hins, hwrite]
  rfl

/-- The child is split first, and the new separator decides on the half. -/
theorem BPlusAimed.insert_eq_of_split (haim : BPlusAimed order h key slots n children SA SB A B c)
    (hfull : c.1.numKeys = order) {env₁ : BPlusEnv} {m i : ℕ} {children₁ : List (Option (BPlusNode K V))}
    {sep : K × V} {d d' : BPlusNode K V}
    (hsplit : bPlusTreeNodeSplit order env slots n children c.1 SA.length = some (env₁, slots', m, children₁))
    (hsep : read slots' SA.length = some sep)
    (hi : (if sep.1 < key then SA.length + 1 else SA.length) = i) (hread : read children₁ i = some d)
    (hins : bPlusTreeNodeInsert order key data h env₁ d = some (env', d'))
    (hwrite : write children₁ i (some d') = some children') :
    bPlusTreeNodeInsert order key data (h + 1) env (.inner slots n children) =
      some (env', .inner slots' m children') := by
  rw [bPlusTreeNodeInsert, haim.descend]
  simp only [Option.bind_eq_bind, Option.bind_some, haim.read_child, if_pos hfull, hsplit, hsep, hi,
    hread, hins, hwrite]
  rfl

/-- Insertion into one half of a full child. After the split the half stands between `A` and `B`. -/
theorem bPlusInserted_of_half {d : BPlusNode K V × List (Tok K V)} {d' : BPlusNode K V}
    {td' : List (Tok K V)} (hlt : n < order) (hw : Weak ts) (hslots : Holds order slots' (SA ++ SB))
    (hn : (SA ++ SB).length = n + 1)
    (hchildren : Holds (order + 1) children' (A.map Prod.fst ++ d.1 :: B.map Prod.fst))
    (hA : A.length = SA.length) (hB : B.length = SB.length)
    (hkids : ∀ d' ∈ A ++ d :: B, d'.1.Shape order h d'.2)
    (hsplit : Split order ⟨ts, env.fresh⟩ ⟨weaveL (A.map Prod.snd) (SA.map Prod.fst) ++ d.2 ++
      weaveR (SB.map Prod.fst) (B.map Prod.snd), env.fresh + 1⟩)
    (hSA : ∀ s ∈ SA, s.1 ≤ key) (hSB : ∀ s ∈ SB, key ≤ s.1)
    (hstrict : bPlusTie order key (h + 1) (.inner slots n children) ≠ true → ∀ s ∈ SB, key < s.1)
    (htie : bPlusTie order key h d.1 = true →
      bPlusTie order key (h + 1) (.inner slots n children) = true)
    (hins : BPlusInserted order h key data ⟨env.fresh + 1, env.splits ++ [(n, order)]⟩ d.1 d.2 env' d' td')
    (hrun : ∀ {children''}, read children' SA.length = some d.1 →
      write children' SA.length (some d') = some children'' →
        bPlusTreeNodeInsert order key data (h + 1) env (.inner slots n children) =
          some (env', .inner slots' (n + 1) children'')) :
    ∃ node' ts', BPlusInserted order (h + 1) key data env (.inner slots n children) ts env' node' ts' := by
  have hread : read children' SA.length = some d.1 := by
    have := hchildren.read
    rwa [List.length_map, hA] at this
  -- a tie in the half is a tie in the node
  have hties : bPlusTie order key h d.1 = true ∨ .key key ∈ marks d.2 →
      bPlusTie order key (h + 1) (.inner slots n children) = true ∨ .key key ∈ marks ts := by
    rintro (ht | hk)
    · exact Or.inl (htie ht)
    · have hmem : .key key ∈ marks (weaveL (A.map Prod.snd) (SA.map Prod.fst) ++ d.2 ++
          weaveR (SB.map Prod.fst) (B.map Prod.snd)) := by
        rw [marks_append, marks_append]
        exact List.mem_append_left _ (List.mem_append_right _ hk)
      have hentry := key_mem_marks.mp hmem
      rw [hsplit.entries] at hentry
      exact Or.inr (key_mem_marks.mpr hentry)
  obtain ⟨children'', ts', hwrite, hshape, hgrow⟩ := bPlusInserted_of_child
    (bPlusTie order key (h + 1) (.inner slots n children) = true ∨ .key key ∈ marks ts)
    hslots hn hchildren hA hB hkids (hsplit.weak hw) hSA hSB (fun hnt ↦ hstrict fun ht ↦ hnt (Or.inl ht))
    hins hties
  obtain ⟨log, hlog, hfull⟩ := hins.log
  refine ⟨_, ts', hrun hread hwrite, hshape, hgrow.of_split hsplit, (n, order) :: log, ?_, fun p hmem ↦ ?_⟩
  · rw [hlog, List.append_assoc, List.singleton_append]
  · rcases List.mem_cons.mp hmem with rfl | hmem
    · exact ⟨hlt, rfl⟩
    · exact hfull p hmem

variable (haim : BPlusAimed order h key slots n children SA SB A B c) (hSA : ∀ s ∈ SA, s.1 ≤ key)
  (hts : ts = weaveL (A.map Prod.snd) (SA.map Prod.fst) ++ c.2 ++
    weaveR (SB.map Prod.fst) (B.map Prod.snd))
  (hw : Weak ts)
  (ih : ∀ (env : BPlusEnv) {node : BPlusNode K V} {ts : List (Tok K V)}, node.Shape order h ts →
    node.numKeys < order → Weak ts →
      ∃ env' node' ts', BPlusInserted order h key data env node ts env' node' ts')

include haim hSA hts hw ih

theorem bPlusTreeNodeInsert_room (hroom : c.1.numKeys ≠ order) (env : BPlusEnv) :
    ∃ env' node' ts',
      BPlusInserted order (h + 1) key data env (.inner slots n children) ts env' node' ts' := by
  have hlt : c.1.numKeys < order := lt_of_le_of_ne haim.shape_child.numKeys_le hroom
  have hmem : some c.1 ∈ children.take (n + 1) := some_mem_take haim.children (by
    simp [haim.lengthA, haim.lengthB, ← haim.length])
  rw [hts] at hw
  obtain ⟨env', c', tc', hins⟩ := ih env haim.shape_child hlt (weak_append₃ hw).2.1
  obtain ⟨children', ts', hwrite, hshape, hgrow⟩ := bPlusInserted_of_child
    (bPlusTie order key (h + 1) (.inner slots n children) = true ∨ .key key ∈ marks ts)
    haim.slots haim.length haim.children haim.lengthA haim.lengthB haim.kids hw hSA
    (fun s hs ↦ (haim.above s hs).le) (fun _ ↦ haim.above) hins
    (Or.imp (fun ht ↦ bPlusTie_inner hmem (Or.inr ht)) fun hk ↦ by
      rw [hts, marks_append, marks_append]
      exact List.mem_append_left _ (List.mem_append_right _ hk))
  rw [← hts] at hgrow
  exact ⟨env', .inner slots n children', ts', haim.insert_eq_of_room hroom hins.run hwrite, hshape, hgrow,
    hins.log⟩

theorem bPlusTreeNodeInsert_split (hord : 2 ≤ order) (hlt : n < order) (hfull : c.1.numKeys = order)
    (env : BPlusEnv) : ∃ env' node' ts',
      BPlusInserted order (h + 1) key data env (.inner slots n children) ts env' node' ts' := by
  have hmem : some c.1 ∈ children.take (n + 1) := some_mem_take haim.children (by
    simp [haim.lengthA, haim.lengthB, ← haim.length])
  obtain ⟨l, r, tl, tr, sep, slots', children', hsplit, hres, hslots', hchildren'⟩ :=
    bPlusTreeNodeSplit_spec hord env haim.slots haim.length hlt haim.children
      (by simpa using haim.lengthA) (by simpa using haim.lengthB) haim.shape_child hfull
  have hstep := hres.split.context (weaveL (A.map Prod.snd) (SA.map Prod.fst))
    (weaveR (SB.map Prod.fst) (B.map Prod.snd))
  rw [← hts] at hstep
  obtain ⟨-, hwlr, -⟩ := weak_append₃ (hstep.weak hw)
  rw [Weak, marks_append, marks_cons_sep, List.pairwise_append, List.pairwise_cons] at hwlr
  have hn : (SA ++ sep :: SB).length = n + 1 := by
    rw [← haim.length, List.length_append, List.length_append, List.length_cons, Nat.add_assoc]
  have hkids : ∀ d ∈ A ++ (l, tl) :: (r, tr) :: B, d.1.Shape order h d.2 := by
    intro d hd
    simp only [List.mem_append, List.mem_cons] at hd
    rcases hd with hd | rfl | rfl | hd
    · exact haim.kids d (by simp [hd])
    · exact hres.left
    · exact hres.right
    · exact haim.kids d (by simp [hd])
  have htie : ∀ d, bPlusTie order key h d = true → d = l ∨ d = r →
      bPlusTie order key (h + 1) (.inner slots n children) = true := by
    rintro d ht (rfl | rfl)
    · exact bPlusTie_inner hmem (Or.inr (hres.tie key (Or.inl ht)))
    · exact bPlusTie_inner hmem (Or.inr (hres.tie key (Or.inr ht)))
  by_cases hgt : sep.1 < key
  · obtain ⟨env', r', tr', hins⟩ :=
      ih ⟨env.fresh + 1, env.splits ++ [(n, order)]⟩ hres.right hres.right_lt hwlr.2.1.2
    have heq : weaveL (A.map Prod.snd) (SA.map Prod.fst) ++ (tl ++ .sep sep.1 :: tr) ++
        weaveR (SB.map Prod.fst) (B.map Prod.snd) =
        weaveL ((A ++ [(l, tl)]).map Prod.snd) ((SA ++ [sep]).map Prod.fst) ++ tr ++
          weaveR (SB.map Prod.fst) (B.map Prod.snd) := by
      rw [List.map_append, List.map_append]
      simp only [List.map_cons, List.map_nil]
      rw [weaveL_concat _ _ (by simpa using haim.lengthA)]
      simp
    rw [heq] at hstep
    have hslotsr : Holds order slots' ((SA ++ [sep]) ++ SB) := by
      rwa [List.append_assoc, List.singleton_append]
    refine ⟨env', bPlusInserted_of_half (A := A ++ [(l, tl)]) (d := (r, tr)) hlt hw hslotsr
      (by simpa using hn) (by simpa using hchildren') (by simp [haim.lengthA]) haim.lengthB
      (by simpa using hkids) hstep ?_ (fun s hs ↦ (haim.above s hs).le) (fun _ ↦ haim.above)
      (fun ht ↦ htie r ht (Or.inr rfl)) hins fun hread hwrite ↦ ?_⟩
    · exact List.forall_mem_append.mpr ⟨hSA, List.forall_mem_singleton.mpr hgt.le⟩
    · rw [List.length_append, List.length_singleton] at hread hwrite
      exact haim.insert_eq_of_split hfull hsplit hslots'.read (if_pos hgt) hread hins.run hwrite
  · obtain ⟨env', l', tl', hins⟩ :=
      ih ⟨env.fresh + 1, env.splits ++ [(n, order)]⟩ hres.left hres.left_lt hwlr.1
    have heq : weaveL (A.map Prod.snd) (SA.map Prod.fst) ++ (tl ++ .sep sep.1 :: tr) ++
        weaveR (SB.map Prod.fst) (B.map Prod.snd) =
        weaveL (A.map Prod.snd) (SA.map Prod.fst) ++ tl ++
          weaveR ((sep :: SB).map Prod.fst) (((r, tr) :: B).map Prod.snd) := by
      simp [weaveR]
    have hle : key ≤ sep.1 := not_lt.mp hgt
    rw [heq] at hstep
    refine ⟨env', bPlusInserted_of_half (B := (r, tr) :: B) (d := (l, tl)) hlt hw hslots' hn
      (by simpa using hchildren') haim.lengthA (by simp [haim.lengthB]) hkids hstep hSA ?_ ?_
      (fun ht ↦ htie l ht (Or.inl rfl)) hins fun hread hwrite ↦ ?_⟩
    · exact List.forall_mem_cons.mpr ⟨hle, fun s hs ↦ (haim.above s hs).le⟩
    · -- a key that is the middle key of the full child is a tie
      refine fun hnt ↦ List.forall_mem_cons.mpr ⟨lt_of_le_of_ne hle fun heq ↦ hnt ?_, haim.above⟩
      exact bPlusTie_inner hmem (Or.inl ⟨hfull, by simp [hres.read_child, heq]⟩)
    · exact haim.insert_eq_of_split hfull hsplit hslots'.read (if_neg hgt) hread hins.run hwrite

end Aimed

/-- **Insertion below a node that is not full.** It is a number of splits, each of a full child of a
node that is not full, followed by the insertion of the pair into one leaf. -/
theorem bPlusTreeNodeInsert_spec (hord : 2 ≤ order) (key : K) (data : V) :
    ∀ {h : ℕ} (env : BPlusEnv) {node : BPlusNode K V} {ts : List (Tok K V)},
      node.Shape order h ts → node.numKeys < order → Weak ts →
      ∃ env' node' ts', BPlusInserted order h key data env node ts env' node' ts' := by
  intro h
  induction h with
  | zero =>
    intro env node ts hs hlt hw
    cases node with
    | inner slots n children => exact hs.elim
    | leaf id slots n next => exact bPlusTreeNodeInsert_leaf key data env hs hlt hw
  | succ h ih =>
    intro env node ts hs hlt hw
    cases node with
    | leaf id slots n next => exact hs.elim
    | inner slots n children =>
      obtain ⟨SA, SB, A, B, c, hslots, hn, hchildren, hA, hB, hkids, hts, hSA, hSB⟩ :=
        hs.exists_child hw key
      have haim : BPlusAimed order h key slots n children SA SB A B c :=
        ⟨hslots, hn, hchildren, hA, hB, hkids, fun s hs ↦ hSA s (List.mem_of_getLast? hs), hSB⟩
      by_cases hfull : c.1.numKeys = order
      · exact bPlusTreeNodeInsert_split haim hSA hts hw ih hord hlt hfull env
      · exact bPlusTreeNodeInsert_room haim hSA hts hw ih hfull env

end Insert

end LatteC
