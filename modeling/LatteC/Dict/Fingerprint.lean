import LatteC.Dict.Iterator
import LatteC.Dict.Refinement

/-!
# The unsafe iterator of a dictionary

The `latte_iterator_t` of `src/dict/dict.c` once more, with what the model of `LatteC.Dict.Iterator` leaves
out: the fingerprint that the first `has_next` takes of the dictionary and that `release` compares, and
pointers that are followed in the dictionary as it is when they are followed.

As long as nobody changes the dictionary the two models do the same, so that what is known of the one holds
of the other.
-/

namespace LatteC

variable {K V : Type}

/-- A `dict_t` with the addresses `ht_table[0]` and `ht_table[1]`. -/
structure DictObject (K V : Type) where
  dict : Dict K V
  ptr0 : UInt64
  ptr1 : UInt64

/-! ## The fingerprint -/

/-- The hashing step of `dictFingerprint`. -/
def dictFingerprintHash (hash : UInt64) : UInt64 :=
  let hash := ~~~hash + (hash <<< 21)
  let hash := hash ^^^ (hash >>> 24)
  let hash := hash + (hash <<< 3) + (hash <<< 8)
  let hash := hash ^^^ (hash >>> 14)
  let hash := hash + (hash <<< 2) + (hash <<< 4)
  let hash := hash ^^^ (hash >>> 28)
  hash + (hash <<< 31)

/-- `ht_size_exp[i]` as an `unsigned long long`. -/
def dictSizeExpWord : Option ℕ → UInt64
  | none => -1
  | some e => UInt64.ofNat e

/-- `dictFingerprint`. -/
def dictFingerprint (o : DictObject K V) : UInt64 :=
  [o.ptr0, dictSizeExpWord o.dict.ht0.sizeExp, UInt64.ofNat o.dict.ht0.used,
    o.ptr1, dictSizeExpWord o.dict.ht1.sizeExp, UInt64.ofNat o.dict.ht1.used].foldl
    (fun hash i ↦ dictFingerprintHash (hash + i)) 0

/-! ## The iterator -/

/-- `dict_iterator_t`. No iterator is ever made with a `safe` other than 0. A pointer to an entry is the
entry. -/
structure DictUnsafeIterator (K V : Type) where
  index : ℤ
  table : Bool
  entry : Option (DictEntry K V)
  nextEntry : Option (DictEntry K V)
  fingerprint : UInt64
  readed : Bool

/-- `dict_get_latte_iterator`. The memory of the fingerprint is not initialized. -/
def dictGetUnsafeIterator (garbage : UInt64) : DictUnsafeIterator K V :=
  ⟨-1, false, none, none, garbage, false⟩

/-- What lies in a chain behind the entry with a key. -/
def dictChainBehind (F : DictFunc K) (key : K) :
    List (DictEntry K V) → Option (List (DictEntry K V))
  | [] => none
  | he :: next => if F.keyCompare key he.key then some next else dictChainBehind F key next

/-- `entry->next`. No two entries of a dictionary have equal keys, so the key says which entry it is. -/
def dictEntryNext (F : DictFunc K) (d : Dict K V) (entry : DictEntry K V) :
    Option (Option (DictEntry K V)) :=
  (d.buckets.findSome? (dictChainBehind F entry.key)).map List.head?

/-- A round of `while(1)` up to `if (iter->entry)`. The flag is false when it has come to the `break`. -/
def dictUnsafeIteratorRound (o : DictObject K V) (it : DictUnsafeIterator K V) :
    Option (DictUnsafeIterator K V × Bool) :=
  match it.entry with
  | some _ => some ({ it with entry := it.nextEntry }, true)
  | none =>
    let fingerprint :=
      if it.index = -1 ∧ it.table = false then dictFingerprint o else it.fingerprint
    let index := it.index + 1
    let t := if it.table then o.dict.ht1 else o.dict.ht0
    if (dicthtSize t.sizeExp : ℤ) ≤ index then
      if dictIsRehashing o.dict ∧ it.table = false then
        (o.dict.ht1.bucket? 0).map fun chain ↦
          ({ it with index := 0, table := true, entry := chain.head?, fingerprint := fingerprint },
            true)
      else some ({ it with index := index, fingerprint := fingerprint }, false)
    else
      (t.bucket? index.toNat).map fun chain ↦
        ({ it with index := index, entry := chain.head?, fingerprint := fingerprint }, true)

/-- `if (iter->entry)`: return if there is an entry, else go on. -/
def dictUnsafeIteratorFound (F : DictFunc K) (o : DictObject K V)
    (next : DictUnsafeIterator K V → Option (DictUnsafeIterator K V × Bool))
    (it : DictUnsafeIterator K V) : Option (DictUnsafeIterator K V × Bool) :=
  match it.entry with
  | none => next it
  | some entry =>
    (dictEntryNext F o.dict entry).map fun nextEntry ↦
      ({ it with nextEntry := nextEntry, readed := false }, true)

/-- The loop `while(1)` of `protected_dict_iterator_has_next`, with the number of rounds it may take. -/
def dictUnsafeIteratorLoop (F : DictFunc K) (o : DictObject K V) :
    (fuel : ℕ) → DictUnsafeIterator K V → Option (DictUnsafeIterator K V × Bool)
  | 0, _ => none
  | fuel + 1, it =>
    (dictUnsafeIteratorRound o it).bind fun r ↦
      if r.2 then dictUnsafeIteratorFound F o (dictUnsafeIteratorLoop F o fuel) r.1
      else some ({ r.1 with index := -2 }, false)

/-- `protected_dict_iterator_has_next`. -/
def protectedDictIteratorHasNext (F : DictFunc K) (o : DictObject K V)
    (it : DictUnsafeIterator K V) : Option (DictUnsafeIterator K V × Bool) :=
  if it.index = -2 then some (it, false)
  else dictUnsafeIteratorLoop F o (dictSlots o.dict + 2) it

/-- The end of `protected_dict_iterator_next`. -/
def dictUnsafeIteratorRead (it : DictUnsafeIterator K V) :
    Option (DictUnsafeIterator K V × Option (DictEntry K V)) :=
  it.entry.map fun entry ↦ ({ it with readed := true }, some entry)

/-- `protected_dict_iterator_next`: the pair it points to, or NULL. -/
def protectedDictIteratorNext (F : DictFunc K) (o : DictObject K V)
    (it : DictUnsafeIterator K V) :
    Option (DictUnsafeIterator K V × Option (DictEntry K V)) :=
  if it.index = -2 then some (it, none)
  else if it.readed then
    (protectedDictIteratorHasNext F o it).bind fun r ↦
      if r.2 then dictUnsafeIteratorRead r.1 else some (r.1, none)
  else dictUnsafeIteratorRead it

/-- `protected_dict_iterator_delete`, with its assertion. -/
def protectedDictIteratorDelete (o : DictObject K V) (it : DictUnsafeIterator K V) : Option Unit :=
  if ¬(it.index = -1 ∧ it.table = false) then
    if it.fingerprint = dictFingerprint o then some () else none
  else some ()

/-! ## Following a pointer -/

theorem dictChainBehind_eq_none {F : DictFunc K} {key : K} {chain : List (DictEntry K V)}
    (h : ∀ x ∈ chain, F.keyCompare key x.key ≠ true) : dictChainBehind F key chain = none := by
  induction chain with
  | nil => rfl
  | cons x chain ih =>
    rw [dictChainBehind, if_neg (h x List.mem_cons_self)]
    exact ih fun y hy ↦ h y (List.mem_cons_of_mem _ hy)

theorem dictChainBehind_append {F : DictFunc K} {e : DictEntry K V}
    {front next : List (DictEntry K V)} (h : ∀ x ∈ front, F.keyCompare e.key x.key ≠ true) :
    dictChainBehind F e.key (front ++ e :: next) = some next := by
  induction front with
  | nil =>
    have hrefl : F.keyCompare e.key e.key = true := F.keyCompare_equivalence.refl e.key
    rw [List.nil_append, dictChainBehind, if_pos hrefl]
  | cons x front ih =>
    rw [List.cons_append, dictChainBehind, if_neg (h x List.mem_cons_self)]
    exact ih fun y hy ↦ h y (List.mem_cons_of_mem _ hy)

/-- Entries in front of `e` have other keys. -/
private theorem keyCompare_ne_of_nodup {F : DictFunc K} {L R : List (DictEntry K V)}
    {e x : DictEntry K V} (h : ((L ++ e :: R).map fun e ↦ F.cls e.key).Nodup) (hx : x ∈ L) :
    F.keyCompare e.key x.key ≠ true := by
  intro hcmp
  rw [List.map_append, List.map_cons] at h
  refine (List.nodup_append.mp h).2.2 (F.cls x.key) (List.mem_map_of_mem hx) (F.cls e.key)
    List.mem_cons_self ?_
  exact (F.cls_eq_cls_iff.mpr hcmp).symm

/-- **The next entry** is the one behind it in its chain. -/
theorem dictEntryNext_eq {F : DictFunc K} {d : Dict K V} (h : d.Inv F)
    {chain next : List (DictEntry K V)} {e : DictEntry K V} (hchain : chain ∈ d.buckets)
    (hsuffix : e :: next <:+ chain) : dictEntryNext F d e = some next.head? := by
  obtain ⟨front, rfl⟩ := hsuffix
  obtain ⟨L, R, hbuckets⟩ := List.append_of_mem hchain
  have hnodup := h.distinct
  rw [Dict.entries_eq_flatten, hbuckets, List.flatten_append, List.flatten_cons, List.append_assoc,
    List.cons_append, ← List.append_assoc] at hnodup
  have hL : L.findSome? (dictChainBehind F e.key) = none := by
    refine List.findSome?_eq_none_iff.mpr fun b hb ↦ dictChainBehind_eq_none fun x hx ↦ ?_
    exact keyCompare_ne_of_nodup hnodup
      (List.mem_append_left _ (List.mem_flatten.mpr ⟨b, hb, hx⟩))
  have hfront : dictChainBehind F e.key (front ++ e :: next) = some next :=
    dictChainBehind_append fun x hx ↦ keyCompare_ne_of_nodup hnodup (List.mem_append_right _ hx)
  rw [dictEntryNext, hbuckets, List.findSome?_append, hL, Option.none_or, List.findSome?_cons,
    hfront, Option.map_some]

/-! ## The two models of the iterator -/

namespace DictUnsafeIterator

/-- The iterator is where the one without pointers is. -/
structure At (o : DictObject K V) (it : DictUnsafeIterator K V) (old : DictIterator K V) :
    Prop where
  index : it.index = old.index
  table : it.table = old.table
  readed : it.readed = old.readed
  entry : it.entry = old.entry.head?
  chain : old.entry ≠ [] → ∃ chain ∈ o.dict.buckets, old.entry <:+ chain

/-- It also knows the next entry, and has the fingerprint of the dictionary unless it is a new one. -/
structure Tracks (o : DictObject K V) (it : DictUnsafeIterator K V) (old : DictIterator K V) :
    Prop extends At o it old where
  next : old.entry ≠ [] → old.nextEntry = old.entry.tail ∧ it.nextEntry = old.nextEntry.head?
  fingerprint : it.index = -1 ∧ it.table = false ∧ it.entry = none ∨
    it.fingerprint = dictFingerprint o

theorem tracks_new (o : DictObject K V) (garbage : UInt64) :
    Tracks o (dictGetUnsafeIterator garbage) dictGetLatteIterator :=
  ⟨⟨rfl, rfl, rfl, rfl, fun h ↦ absurd rfl h⟩, fun h ↦ absurd rfl h, .inl ⟨rfl, rfl, rfl⟩⟩

namespace Tracks

variable {F : DictFunc K} {o : DictObject K V} {it : DictUnsafeIterator K V}
  {old : DictIterator K V}

/-- Releasing the iterator does not fail. -/
theorem delete (h : Tracks o it old) : protectedDictIteratorDelete o it = some () := by
  rw [protectedDictIteratorDelete]
  rcases h.fingerprint with ⟨hindex, htable, -⟩ | hfp
  · rw [if_neg (not_not_intro ⟨hindex, htable⟩)]
  · rw [if_pos hfp, ite_self]

/-- What the other model finds at the end of a round, this one finds. -/
theorem found {old' : DictIterator K V} {r : Bool}
    {next : DictUnsafeIterator K V → Option (DictUnsafeIterator K V × Bool)}
    {oldNext : DictIterator K V → Option (DictIterator K V × Bool)} (h : o.dict.Inv F)
    (hat : At o it old) (hfp : it.fingerprint = dictFingerprint o)
    (hnext : ∀ {it : DictUnsafeIterator K V}, Tracks o it old →
      oldNext old = some (old', r) → ∃ it', next it = some (it', r) ∧ Tracks o it' old')
    (hfound : dictIteratorFound oldNext old = some (old', r)) :
    ∃ it', dictUnsafeIteratorFound F o next it = some (it', r) ∧ Tracks o it' old' := by
  rw [dictIteratorFound] at hfound
  have hentry := hat.entry
  cases hold : old.entry with
  | nil =>
    rw [hold] at hfound hentry
    rw [dictUnsafeIteratorFound, hentry]
    exact hnext ⟨hat, fun hne ↦ absurd hold hne, .inr hfp⟩ hfound
  | cons e rest =>
    rw [hold] at hfound hentry
    obtain ⟨chain, hmem, hsuffix⟩ := hat.chain (by rw [hold]; exact List.cons_ne_nil e rest)
    rw [hold] at hsuffix
    obtain ⟨rfl, rfl⟩ := Prod.mk.inj (Option.some.inj hfound)
    refine ⟨{ it with nextEntry := rest.head?, readed := false }, ?_,
      ⟨hat.index, hat.table, rfl, hentry, fun _ ↦ ⟨chain, hmem, hsuffix⟩⟩, fun _ ↦ ⟨rfl, rfl⟩,
      .inr hfp⟩
    rw [dictUnsafeIteratorFound, hentry, List.head?_cons]
    simp only [dictEntryNext_eq h hmem hsuffix, Option.map_some]

/-- A bucket that can be read is one of the dictionary. -/
private theorem mem_buckets {d : Dict K V} (h : d.Inv F) (table : Bool) {i : ℕ}
    {chain : List (DictEntry K V)}
    (hbucket : (if table then d.ht1 else d.ht0).bucket? i = some chain) : chain ∈ d.buckets := by
  cases table with
  | false =>
    rw [if_neg Bool.false_ne_true, h.sized.ht0.bucket] at hbucket
    exact List.mem_append_left _ (List.mem_of_getElem? hbucket)
  | true =>
    rw [if_pos rfl, h.sized.ht1.bucket] at hbucket
    exact List.mem_append_right _ (List.mem_of_getElem? hbucket)

/-- A round of the other model, and the same round of this one. -/
theorem loop (h : o.dict.Inv F) : ∀ (fuel : ℕ) {it : DictUnsafeIterator K V}
    {old old' : DictIterator K V} {r : Bool}, Tracks o it old →
      dictIteratorLoop o.dict fuel old = some (old', r) →
      ∃ it', dictUnsafeIteratorLoop F o fuel it = some (it', r) ∧ Tracks o it' old' := by
  intro fuel
  induction fuel with
  | zero => exact fun _ hloop ↦ by cases hloop
  | succ fuel ih =>
    intro it old old' r ht hloop
    have hentry := ht.entry
    rw [dictIteratorLoop] at hloop
    rw [dictUnsafeIteratorLoop, dictUnsafeIteratorRound]
    cases hold : old.entry with
    | cons e rest =>
      rw [hold] at hloop hentry
      obtain ⟨chain, hmem, hsuffix⟩ := ht.chain (by rw [hold]; exact List.cons_ne_nil e rest)
      obtain ⟨htail, hnext⟩ := ht.next (by rw [hold]; exact List.cons_ne_nil e rest)
      have hfp : it.fingerprint = dictFingerprint o := by
        rcases ht.fingerprint with ⟨-, -, hnone⟩ | hfp
        · rw [hentry] at hnone
          cases hnone
        · exact hfp
      have hat : At o { it with entry := it.nextEntry } { old with entry := old.nextEntry } := by
        refine ⟨ht.index, ht.table, ht.readed, hnext, fun _ ↦ ⟨chain, hmem, ?_⟩⟩
        rw [hold] at hsuffix
        rw [htail, hold, List.tail_cons]
        exact (List.suffix_cons e rest).trans hsuffix
      rw [hentry, List.head?_cons]
      simp only [Option.bind_some, if_true]
      exact found h hat hfp (fun ht ↦ ih ht) hloop
    | nil =>
      rw [hold] at hloop hentry
      rw [hentry, List.head?_nil]
      have hfp : (if it.index = -1 ∧ it.table = false then dictFingerprint o else it.fingerprint) =
          dictFingerprint o := by
        rcases ht.fingerprint with ⟨hindex, htable, -⟩ | hfp
        · rw [if_pos ⟨hindex, htable⟩]
        · rw [hfp, ite_self]
      have henter : ∀ {index : ℤ} {table : Bool} {i : ℕ} {chain : List (DictEntry K V)},
          (if table then o.dict.ht1 else o.dict.ht0).bucket? i = some chain →
          dictIteratorFound (dictIteratorLoop o.dict fuel)
            { old with index := index, table := table, entry := chain } = some (old', r) →
          ∃ it', dictUnsafeIteratorFound F o (dictUnsafeIteratorLoop F o fuel)
            { it with index := index, table := table, entry := chain.head?,
                      fingerprint := dictFingerprint o } = some (it', r) ∧ Tracks o it' old' := by
        intro index table i chain hbucket hfound
        have hat : At o
            { it with index := index, table := table, entry := chain.head?,
                      fingerprint := dictFingerprint o }
            { old with index := index, table := table, entry := chain } :=
          ⟨rfl, rfl, ht.readed, rfl, fun _ ↦
            ⟨chain, mem_buckets h table hbucket, List.suffix_refl chain⟩⟩
        exact found h hat rfl (fun ht ↦ ih ht) hfound
      simp only [hfp]
      simp only [ht.index, ht.table] at hloop ⊢
      by_cases hround : (dicthtSize (if old.table then o.dict.ht1 else o.dict.ht0).sizeExp : ℤ) ≤
          old.index + 1
      · rw [if_pos hround] at hloop ⊢
        by_cases hsecond : dictIsRehashing o.dict = true ∧ old.table = false
        · rw [if_pos hsecond] at hloop ⊢
          obtain ⟨chain, hbucket, hfound⟩ := Option.bind_eq_some_iff.mp hloop
          rw [hbucket, Option.map_some, Option.bind_some, if_pos rfl]
          have htable₁ : (if true then o.dict.ht1 else o.dict.ht0).bucket? 0 = some chain := hbucket
          exact henter htable₁ hfound
        · rw [if_neg hsecond] at hloop ⊢
          obtain ⟨rfl, rfl⟩ := Prod.mk.inj (Option.some.inj hloop)
          exact ⟨_, rfl, ⟨rfl, rfl, ht.readed, rfl, fun hne ↦ absurd rfl hne⟩,
            fun hne ↦ absurd rfl hne, .inr rfl⟩
      · rw [if_neg hround] at hloop ⊢
        obtain ⟨chain, hbucket, hfound⟩ := Option.bind_eq_some_iff.mp hloop
        rw [hbucket, Option.map_some, Option.bind_some, if_pos rfl]
        exact henter hbucket hfound

theorem hasNext (h : o.dict.Inv F) {old' : DictIterator K V} {r : Bool} (ht : Tracks o it old)
    (hold : dictIteratorHasNext o.dict old = some (old', r)) :
    ∃ it', protectedDictIteratorHasNext F o it = some (it', r) ∧ Tracks o it' old' := by
  rw [dictIteratorHasNext] at hold
  rw [protectedDictIteratorHasNext, ht.index]
  split_ifs at hold ⊢
  · obtain ⟨rfl, rfl⟩ := Prod.mk.inj (Option.some.inj hold)
    exact ⟨it, rfl, ht⟩
  · exact ht.loop h _ hold

theorem read {old' : DictIterator K V} {e : Option (DictEntry K V)} (ht : Tracks o it old)
    (hold : dictIteratorRead old = some (old', e)) :
    ∃ it', dictUnsafeIteratorRead it = some (it', e) ∧ Tracks o it' old' := by
  rw [dictIteratorRead] at hold
  have hentry := ht.entry
  have hchain := ht.chain
  have hnext := ht.next
  cases hcase : old.entry with
  | nil =>
    rw [hcase] at hold
    cases hold
  | cons x rest =>
    rw [hcase] at hold hentry hchain hnext
    obtain ⟨rfl, rfl⟩ := Prod.mk.inj (Option.some.inj hold)
    refine ⟨{ it with readed := true }, ?_,
      ⟨⟨ht.index, ht.table, rfl, hentry, hchain⟩, hnext, ht.fingerprint⟩⟩
    rw [dictUnsafeIteratorRead, hentry]
    rfl

theorem nextEntry (h : o.dict.Inv F) {old' : DictIterator K V} {e : Option (DictEntry K V)}
    (ht : Tracks o it old) (hold : dictIteratorNext o.dict old = some (old', e)) :
    ∃ it', protectedDictIteratorNext F o it = some (it', e) ∧ Tracks o it' old' := by
  rw [dictIteratorNext] at hold
  rw [protectedDictIteratorNext, ht.index, ht.readed]
  by_cases hindex : old.index = -2
  · rw [if_pos hindex] at hold ⊢
    obtain ⟨rfl, rfl⟩ := Prod.mk.inj (Option.some.inj hold)
    exact ⟨it, rfl, ht⟩
  · rw [if_neg hindex] at hold ⊢
    by_cases hreaded : old.readed = true
    · rw [if_pos hreaded] at hold ⊢
      obtain ⟨⟨old₁, r⟩, hhas, hread⟩ := Option.bind_eq_some_iff.mp hold
      obtain ⟨it₁, hhas₁, ht₁⟩ := ht.hasNext h hhas
      rw [hhas₁, Option.bind_some]
      cases r with
      | true => exact ht₁.read hread
      | false =>
        obtain ⟨rfl, rfl⟩ := Prod.mk.inj (Option.some.inj hread)
        exact ⟨it₁, rfl, ht₁⟩
    · rw [if_neg hreaded] at hold ⊢
      exact ht.read hold

end Tracks

end DictUnsafeIterator

/-! ## Iterating -/

open Lookahead

/-- A call of the iterator. -/
def dictUnsafeIteratorStep (F : DictFunc K) (o : DictObject K V) (it : DictUnsafeIterator K V) :
    Call → Option (DictUnsafeIterator K V × Reply (DictEntry K V))
  | .hasNext => (protectedDictIteratorHasNext F o it).map fun r ↦ (r.1, .bool r.2)
  | .next => (protectedDictIteratorNext F o it).map fun r ↦ (r.1, .element r.2)

namespace DictUnsafeIterator

variable {F : DictFunc K} {o : DictObject K V}

/-- The entries `rest` are still to come, and the next call is `has_next`. -/
def Ready (h : o.dict.Inv F) (rest : List (DictEntry K V)) (it : DictUnsafeIterator K V) : Prop :=
  ∃ old p, Tracks o it old ∧ (dictIteratorImpl h.sized).Ready p rest old

/-- The entry `x` has been found and `rest` is behind it. -/
def Fetched (h : o.dict.Inv F) (x : DictEntry K V) (rest : List (DictEntry K V))
    (it : DictUnsafeIterator K V) : Prop :=
  ∃ old, Tracks o it old ∧ (dictIteratorImpl h.sized).Fetched x rest old

/-- `has_next` has come to the end. -/
def Ended (h : o.dict.Inv F) (it : DictUnsafeIterator K V) : Prop :=
  ∃ old, Tracks o it old ∧ (dictIteratorImpl h.sized).Ended old

variable (h : o.dict.Inv F)

theorem ready_new (garbage : UInt64) :
    Ready h o.dict.entries (dictGetUnsafeIterator garbage) :=
  ⟨_, none, tracks_new o garbage, rfl, rfl⟩

variable {h}

/-- A call of the other iterator, and the same call of this one. -/
private theorem hasNext_of_step (h : o.dict.Inv F) {it : DictUnsafeIterator K V} {old old' : DictIterator K V}
    {r : Bool}
    (ht : Tracks o it old) (hstep : dictIteratorStep o.dict old .hasNext = some (old', .bool r)) :
    ∃ it', protectedDictIteratorHasNext F o it = some (it', r) ∧ Tracks o it' old' := by
  obtain ⟨⟨old₁, r₁⟩, hhas, heq⟩ := Option.map_eq_some_iff.mp hstep
  obtain ⟨rfl, hr⟩ := Prod.mk.inj heq
  exact ht.hasNext h (Reply.bool.inj hr ▸ hhas)

theorem Ready.hasNext_cons {x : DictEntry K V} {rest : List (DictEntry K V)}
    {it : DictUnsafeIterator K V} (hit : Ready h (x :: rest) it) :
    ∃ it', protectedDictIteratorHasNext F o it = some (it', true) ∧ Fetched h x rest it' := by
  obtain ⟨old, p, ht, hready⟩ := hit
  obtain ⟨old', hstep, hfetched⟩ := (dictIteratorImpl h.sized).hasNext_cons hready
  obtain ⟨it', hhas, ht'⟩ := hasNext_of_step h ht hstep
  exact ⟨it', hhas, old', ht', hfetched⟩

theorem Ready.hasNext_nil {it : DictUnsafeIterator K V} (hit : Ready h [] it) :
    ∃ it', protectedDictIteratorHasNext F o it = some (it', false) ∧ Ended h it' := by
  obtain ⟨old, p, ht, hready⟩ := hit
  obtain ⟨old', hstep, hended⟩ := (dictIteratorImpl h.sized).hasNext_nil hready
  obtain ⟨it', hhas, ht'⟩ := hasNext_of_step h ht hstep
  exact ⟨it', hhas, old', ht', hended⟩

theorem Ended.hasNext {it : DictUnsafeIterator K V} (hit : Ended h it) :
    ∃ it', protectedDictIteratorHasNext F o it = some (it', false) ∧ Ended h it' := by
  obtain ⟨old, ht, hended⟩ := hit
  obtain ⟨old', hstep, hended'⟩ := (dictIteratorImpl h.sized).ended_false (.inl rfl) hended
  obtain ⟨it', hhas, ht'⟩ := hasNext_of_step h ht hstep
  exact ⟨it', hhas, old', ht', hended'⟩

theorem Fetched.next {x : DictEntry K V} {rest : List (DictEntry K V)} {it : DictUnsafeIterator K V}
    (hit : Fetched h x rest it) :
    ∃ it', protectedDictIteratorNext F o it = some (it', some x) ∧ Ready h rest it' := by
  obtain ⟨old, ht, hfetched⟩ := hit
  obtain ⟨old', hstep, hready⟩ := (dictIteratorImpl h.sized).next_fetched hfetched
  obtain ⟨⟨old₁, e⟩, hnext, heq⟩ := Option.map_eq_some_iff.mp hstep
  obtain ⟨rfl, he⟩ := Prod.mk.inj heq
  obtain ⟨it', hnext', ht'⟩ := ht.nextEntry h hnext
  rw [show e = some x from Reply.element.inj he] at hnext'
  exact ⟨it', hnext', old₁, some x, ht', hready⟩

theorem Ready.delete {rest : List (DictEntry K V)} {it : DictUnsafeIterator K V}
    (hit : Ready h rest it) : protectedDictIteratorDelete o it = some () := by
  obtain ⟨old, p, ht, -⟩ := hit
  exact ht.delete

theorem Fetched.delete {x : DictEntry K V} {rest : List (DictEntry K V)}
    {it : DictUnsafeIterator K V} (hit : Fetched h x rest it) :
    protectedDictIteratorDelete o it = some () := by
  obtain ⟨old, ht, -⟩ := hit
  exact ht.delete

theorem Ended.delete {it : DictUnsafeIterator K V} (hit : Ended h it) :
    protectedDictIteratorDelete o it = some () := by
  obtain ⟨old, ht, -⟩ := hit
  exact ht.delete

/-- `has_next` and `next` in turn. -/
theorem Ready.run (h : o.dict.Inv F) : ∀ (done rest : List (DictEntry K V))
    {it : DictUnsafeIterator K V}, Ready h (done ++ rest) it →
    ∃ it', CallMachine.run (dictUnsafeIteratorStep F o) it
        (done.flatMap fun _ ↦ [.hasNext, .next]) =
          some (it', done.flatMap fun e ↦ [.bool true, .element (some e)]) ∧ Ready h rest it' := by
  intro done
  induction done with
  | nil => exact fun rest it hit ↦ ⟨it, rfl, hit⟩
  | cons x done ih =>
    intro rest it hit
    obtain ⟨it₁, hhas, hfetched⟩ := Ready.hasNext_cons hit
    obtain ⟨it₂, hnext, hready⟩ := hfetched.next
    obtain ⟨it₃, hrun, hready'⟩ := ih rest hready
    have hstep₁ : dictUnsafeIteratorStep F o it .hasNext = some (it₁, .bool true) := by
      rw [dictUnsafeIteratorStep, hhas, Option.map_some]
    have hstep₂ : dictUnsafeIteratorStep F o it₁ .next = some (it₂, .element (some x)) := by
      rw [dictUnsafeIteratorStep, hnext, Option.map_some]
    refine ⟨it₃, ?_, hready'⟩
    rw [List.flatMap_cons, List.cons_append, List.cons_append, List.nil_append,
      CallMachine.run_cons_of_step hstep₁, CallMachine.run_cons_of_step hstep₂, hrun]
    rfl

/-- `has_next` behind the end. -/
theorem Ended.run : ∀ (m : ℕ) {it : DictUnsafeIterator K V}, Ended h it →
    ∃ it', CallMachine.run (dictUnsafeIteratorStep F o) it (List.replicate m .hasNext) =
      some (it', List.replicate m (.bool false)) ∧ Ended h it' := by
  intro m
  induction m with
  | zero => exact fun hit ↦ ⟨_, rfl, hit⟩
  | succ m ih =>
    intro it hit
    obtain ⟨it₁, hhas, hended⟩ := hit.hasNext
    obtain ⟨it₂, hrun, hended'⟩ := ih hended
    have hstep : dictUnsafeIteratorStep F o it .hasNext = some (it₁, .bool false) := by
      rw [dictUnsafeIteratorStep, hhas, Option.map_some]
    refine ⟨it₂, ?_, hended'⟩
    rw [List.replicate_succ, CallMachine.run_cons_of_step hstep, hrun]
    rfl

end DictUnsafeIterator

/-- What is found in the map is stored. -/
theorem Dict.Inv.exists_entry_of_lookup {F : DictFunc K} {d : Dict K V} (h : d.Inv F) {k : F.Key}
    {e : DictEntry K V} (hlookup : (d.toMap F).lookup k = some e) :
    e ∈ d.entries ∧ F.cls e.key = k := by
  have hex : ∃ x ∈ d.entries, F.cls x.key = k := by
    by_contra hno
    push Not at hno
    have hnone : (d.toMap F).lookup k = none := KeyedList.lookup_toMap_eq_none hno
    rw [hnone] at hlookup
    cases hlookup
  obtain ⟨x, hmem, rfl⟩ := hex
  have hx : (d.toMap F).lookup (F.cls x.key) = some x :=
    KeyedList.lookup_toMap_of_mem h.distinct hmem
  rw [hlookup] at hx
  rw [Option.some.inj hx]
  exact ⟨hmem, rfl⟩

/-- What is stored is what the map has. -/
theorem Dict.Inv.mem_entries_iff {F : DictFunc K} {d : Dict K V} (h : d.Inv F)
    {e : DictEntry K V} : e ∈ d.entries ↔ (d.toMap F).lookup (F.cls e.key) = some e :=
  ⟨fun hmem ↦ KeyedList.lookup_toMap_of_mem h.distinct hmem,
    fun hlookup ↦ (h.exists_entry_of_lookup hlookup).1⟩

/-- Dictionaries with the same map have the same entries. -/
theorem Dict.Inv.perm_of_toMap_eq {F : DictFunc K} {d d' : Dict K V} (h : d.Inv F) (h' : d'.Inv F)
    (hmap : d'.toMap F = d.toMap F) : d'.entries.Perm d.entries :=
  KeyedList.perm_of_toMap_eq h'.distinct h.distinct hmap

/-- Filing an entry under a new key. -/
theorem Dict.Inv.perm_of_toMap_insert {F : DictFunc K} {d d' : Dict K V} (h : d.Inv F) (h' : d'.Inv F)
    {e : DictEntry K V} (hnone : (d.toMap F).lookup (F.cls e.key) = none)
    (hmap : d'.toMap F = (d.toMap F).insert (F.cls e.key) e) : d'.entries.Perm (e :: d.entries) := by
  refine KeyedList.perm_of_toMap_eq h'.distinct ?_ ?_
  · rw [List.map_cons, List.nodup_cons]
    refine ⟨fun hmem ↦ ?_, h.distinct⟩
    obtain ⟨x, hx, hcls⟩ := List.mem_map.mp hmem
    have hlookup := h.mem_entries_iff.mp hx
    rw [hcls, hnone] at hlookup
    cases hlookup
  · rw [KeyedList.toMap_cons]
    exact hmap

/-- Erasing a key. -/
theorem Dict.Inv.perm_of_toMap_erase {F : DictFunc K} {d d' : Dict K V} (h : d.Inv F) (h' : d'.Inv F)
    {k : F.Key} {e : DictEntry K V} (hlookup : (d.toMap F).lookup k = some e)
    (hmap : d'.toMap F = (d.toMap F).erase k) : d.entries.Perm (e :: d'.entries) := by
  obtain ⟨hmem, rfl⟩ := h.exists_entry_of_lookup hlookup
  obtain ⟨l₁, l₂, hsplit⟩ := List.append_of_mem hmem
  have hperm : d.entries.Perm (e :: (l₁ ++ l₂)) := hsplit ▸ List.perm_middle
  have hnodup := nodup_cls_of_perm hperm.symm h.distinct
  rw [List.map_cons, List.nodup_cons] at hnodup
  have hrest : d'.entries.Perm (l₁ ++ l₂) := by
    refine KeyedList.perm_of_toMap_eq h'.distinct hnodup.2 ?_
    exact hmap.trans (KeyedList.toMap_erase h.distinct hperm).symm
  exact hperm.trans (hrest.symm.cons e)

/-- **Every entry once.** In whatever state a dictionary is that nobody changes, `has_next` and `next` in turn
hand out the entries, none of them twice: `k` turns the first `k` of them, as many turns as there are entries
all of them. Then `has_next` is false however often it is called, before that it is true. Wherever the
iterator is released on the way, its assertion holds. -/
theorem dictUnsafeIterator_once (F : DictFunc K) (o : DictObject K V) (h : o.dict.Inv F)
    (garbage : UInt64) :
    o.dict.entries.Nodup ∧
    (∀ e, e ∈ o.dict.entries ↔ (o.dict.toMap F).lookup (F.cls e.key) = some e) ∧
    ∀ k ≤ o.dict.entries.length, ∃ it,
      CallMachine.run (dictUnsafeIteratorStep F o) (dictGetUnsafeIterator garbage)
          (List.replicate k [Call.hasNext, .next]).flatten =
        some (it, (o.dict.entries.take k).flatMap fun e ↦ [.bool true, .element (some e)]) ∧
      protectedDictIteratorDelete o it = some () ∧
      (k < o.dict.entries.length → ∃ it',
        dictUnsafeIteratorStep F o it .hasNext = some (it', .bool true) ∧
        protectedDictIteratorDelete o it' = some ()) ∧
      (k = o.dict.entries.length → ∀ m, ∃ it',
        CallMachine.run (dictUnsafeIteratorStep F o) it (List.replicate m .hasNext) =
          some (it', List.replicate m (.bool false)) ∧
        protectedDictIteratorDelete o it' = some ()) := by
  refine ⟨h.distinct.of_map _, fun e ↦ h.mem_entries_iff, fun k hk ↦ ?_⟩
  · have hnew := DictUnsafeIterator.ready_new h garbage
    rw [← List.take_append_drop k o.dict.entries] at hnew
    obtain ⟨it, hrun, hready⟩ := DictUnsafeIterator.Ready.run h _ _ hnew
    have hcalls : ((o.dict.entries.take k).flatMap fun _ ↦ [Call.hasNext, .next]) =
        (List.replicate k [Call.hasNext, .next]).flatten := by
      rw [List.flatMap_def, List.map_const', List.length_take_of_le hk]
    rw [hcalls] at hrun
    refine ⟨it, hrun, hready.delete, fun hlt ↦ ?_, fun heq m ↦ ?_⟩
    · rw [List.drop_eq_getElem_cons hlt] at hready
      obtain ⟨it', hhas, hfetched⟩ := hready.hasNext_cons
      exact ⟨it', by rw [dictUnsafeIteratorStep, hhas, Option.map_some], hfetched.delete⟩
    · rw [heq, List.drop_length] at hready
      cases m with
      | zero => exact ⟨it, rfl, hready.delete⟩
      | succ m =>
        obtain ⟨it₁, hhas, hended⟩ := hready.hasNext_nil
        obtain ⟨it₂, hrest, hended'⟩ := hended.run m
        have hstep : dictUnsafeIteratorStep F o it .hasNext = some (it₁, .bool false) := by
          rw [dictUnsafeIteratorStep, hhas, Option.map_some]
        refine ⟨it₂, ?_, hended'.delete⟩
        rw [List.replicate_succ, CallMachine.run_cons_of_step hstep, hrest]
        rfl

/-- Five keys, the last of which has started a rehash. -/
def dictFiveKeys : Dict ℕ ℕ where
  ht0 := ⟨some [[⟨4, some 40⟩], [⟨1, some 10⟩], [⟨2, some 20⟩], [⟨3, some 30⟩]], 4, some 2⟩
  ht1 := ⟨some [[], [], [], [], [], [⟨5, some 50⟩], [], []], 1, some 3⟩
  rehashidx := some 0
  pauserehash := 0

theorem dictFiveKeys_reached : CallMachine.run (dictStep natDictFunc) dictNew
    [.add 1 10, .add 2 20, .add 3 30, .add 4 40, .add 5 50] =
      some (dictFiveKeys, List.replicate 5 (.status .ok)) := rfl

theorem inv_dictFiveKeys : dictFiveKeys.Inv natDictFunc := by
  have hspec : ∃ m, CallMachine.run (dictMapStep natDictFunc) ∅
      [.add 1 10, .add 2 20, .add 3 30, .add 4 40, .add 5 50] =
        some (m, List.replicate 5 (.status .ok)) := ⟨_, rfl⟩
  obtain ⟨m, hrun⟩ := hspec
  obtain ⟨d, hd, hinv, -⟩ :=
    CallMachine.run_refines (dictStep_refines natDictFunc) (represents_dictNew natDictFunc) hrun
  rw [dictFiveKeys_reached] at hd
  rw [(Prod.mk.inj (Option.some.inj hd)).1]
  exact hinv

/-- All five, in the middle of a rehash, and then `has_next` twice more. -/
theorem dictUnsafeIterator_once_five : ∃ it,
    CallMachine.run (dictUnsafeIteratorStep natDictFunc ⟨dictFiveKeys, 4096, 8192⟩)
        (dictGetUnsafeIterator 0) (List.replicate 5 [Lookahead.Call.hasNext, .next]).flatten =
      some (it, [.bool true, .element (some ⟨4, some 40⟩), .bool true, .element (some ⟨1, some 10⟩),
        .bool true, .element (some ⟨2, some 20⟩), .bool true, .element (some ⟨3, some 30⟩),
        .bool true, .element (some ⟨5, some 50⟩)]) ∧
    ∃ it', CallMachine.run (dictUnsafeIteratorStep natDictFunc ⟨dictFiveKeys, 4096, 8192⟩) it
        [.hasNext, .hasNext] = some (it', [.bool false, .bool false]) ∧
      protectedDictIteratorDelete ⟨dictFiveKeys, 4096, 8192⟩ it' = some () := by
  obtain ⟨-, -, honce⟩ :=
    dictUnsafeIterator_once natDictFunc ⟨dictFiveKeys, 4096, 8192⟩ inv_dictFiveKeys 0
  obtain ⟨it, hrun, -, -, hend⟩ := honce 5 (by decide)
  exact ⟨it, hrun, hend rfl 2⟩

end LatteC
