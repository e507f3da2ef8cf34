import LatteC.Dict.Invariant
import LatteC.Foundation.Lookahead

/-!
# The iterator of a dictionary

The `latte_iterator_t` of `src/dict/dict.c`. `has_next` goes to the next entry, bucket by bucket and
through both tables; `next` hands that entry out, or goes there itself if the one before has
been read already. The flag `readed` that tells these apart is false in a new iterator too, although
no entry has been found yet.

A pointer to an entry is the rest of its chain, from that entry on. The fingerprint of the
dictionary is only compared when the iterator is released, and is left out.
-/

namespace LatteC

variable {K V : Type}

/-- `dict_iterator_t`, with `safe` = 0. -/
structure DictIterator (K V : Type) where
  index : ℤ
  table : Bool
  entry : List (DictEntry K V)
  nextEntry : List (DictEntry K V)
  readed : Bool

/-- `dict_get_latte_iterator`. -/
def dictGetLatteIterator : DictIterator K V := ⟨-1, false, [], [], false⟩

/-- The end of a round of the loop: return if there is an entry, else go on. -/
def dictIteratorFound (next : DictIterator K V → Option (DictIterator K V × Bool))
    (it : DictIterator K V) : Option (DictIterator K V × Bool) :=
  match it.entry with
  | [] => next it
  | _ :: nextEntry => some ({ it with nextEntry := nextEntry, readed := false }, true)

/-- The loop `while(1)` of `protected_dict_iterator_has_next`, with the number of rounds it may
take. -/
def dictIteratorLoop (d : Dict K V) :
    (fuel : ℕ) → DictIterator K V → Option (DictIterator K V × Bool)
  | 0, _ => none
  | fuel + 1, it =>
    match it.entry with
    | [] =>
      let index := it.index + 1
      let t := if it.table then d.ht1 else d.ht0
      if (dicthtSize t.sizeExp : ℤ) ≤ index then
        if dictIsRehashing d ∧ it.table = false then
          (d.ht1.bucket? 0).bind fun chain ↦
            dictIteratorFound (dictIteratorLoop d fuel)
              { it with index := 0, table := true, entry := chain }
        else some ({ it with index := -2 }, false)
      else
        (t.bucket? index.toNat).bind fun chain ↦
          dictIteratorFound (dictIteratorLoop d fuel) { it with index := index, entry := chain }
    | _ :: _ => dictIteratorFound (dictIteratorLoop d fuel) { it with entry := it.nextEntry }

/-- `protected_dict_iterator_has_next`. A round enters a bucket, or leaves one. -/
def dictIteratorHasNext (d : Dict K V) (it : DictIterator K V) :
    Option (DictIterator K V × Bool) :=
  if it.index = -2 then some (it, false) else dictIteratorLoop d (dictSlots d + 2) it

/-- The end of `protected_dict_iterator_next`. -/
def dictIteratorRead (it : DictIterator K V) :
    Option (DictIterator K V × Option (DictEntry K V)) :=
  match it.entry with
  | [] => none
  | e :: _ => some ({ it with readed := true }, some e)

/-- `protected_dict_iterator_next`: the pair it points to, or NULL. -/
def dictIteratorNext (d : Dict K V) (it : DictIterator K V) :
    Option (DictIterator K V × Option (DictEntry K V)) :=
  if it.index = -2 then some (it, none)
  else if it.readed then
    (dictIteratorHasNext d it).bind fun r ↦
      if r.2 then dictIteratorRead r.1 else some (r.1, none)
  else dictIteratorRead it

open Lookahead

/-- A call of the iterator. -/
def dictIteratorStep (d : Dict K V) (it : DictIterator K V) :
    Call → Option (DictIterator K V × Reply (DictEntry K V))
  | .hasNext => (dictIteratorHasNext d it).map fun r ↦ (r.1, .bool r.2)
  | .next => (dictIteratorNext d it).map fun r ↦ (r.1, .element r.2)

/-! ## The buckets in the order of the iterator -/

/-- The buckets of a table. -/
def DictTable.buckets (t : DictTable K V) : List (List (DictEntry K V)) := t.table.getD []

/-- The buckets of both tables. -/
def Dict.buckets (d : Dict K V) : List (List (DictEntry K V)) := d.ht0.buckets ++ d.ht1.buckets

theorem Dict.entries_eq_flatten (d : Dict K V) : d.entries = d.buckets.flatten :=
  List.flatten_append.symm

/-- The number of buckets is the size of the table, and the bucket pointers are good. -/
structure DictTable.Sized (t : DictTable K V) : Prop where
  size : dicthtSize t.sizeExp = t.buckets.length
  bucket : ∀ i, t.bucket? i = t.buckets[i]?

theorem sized_dictReset : (dictReset : DictTable K V).Sized := ⟨rfl, fun _ ↦ rfl⟩

theorem DictTable.Live.sized {F : DictFunc K} {e : ℕ} {bs : List (List (DictEntry K V))}
    {t : DictTable K V} (h : t.Live F e bs) : t.Sized := by
  have hbs : t.buckets = bs := by rw [DictTable.buckets, h.table, Option.getD_some]
  refine ⟨?_, fun i ↦ ?_⟩
  · rw [h.sizeExp, hbs, h.length]
    rfl
  · rw [h.bucket?, hbs]

/-- What the iterator relies on. -/
structure Dict.Sized (d : Dict K V) : Prop where
  ht0 : d.ht0.Sized
  ht1 : d.ht1.Sized
  /-- There is a second table exactly during a rehash. -/
  rehashing : dictIsRehashing d = true ↔ d.ht1.buckets ≠ []

theorem Dict.Inv.sized {F : DictFunc K} {d : Dict K V} (h : d.Inv F) : d.Sized := by
  rcases h.tables with hi | ⟨r, hr⟩
  · refine ⟨?_, hi.ht1 ▸ sized_dictReset, ?_⟩
    · rcases hi.ht0 with h0 | ⟨e, bs, hlive⟩
      · exact h0 ▸ sized_dictReset
      · exact hlive.sized
    · rw [hi.dictIsRehashing, hi.ht1]
      simp [DictTable.buckets, dictReset]
  · obtain ⟨e₁, bs₁, h1⟩ := hr.ht1
    obtain ⟨e₀, bs₀, h0, -⟩ := hr.ht0
    refine ⟨h0.sized, h1.sized, iff_of_true hr.dictIsRehashing ?_⟩
    have hlen : d.ht1.buckets.length = 2 ^ e₁ := by
      rw [DictTable.buckets, h1.table, Option.getD_some, h1.length]
    intro hnil
    rw [hnil, List.length_nil] at hlen
    exact (Nat.two_pow_pos e₁).ne hlen

/-- The iterator has entered the first `p` buckets. -/
def DictIterator.At (d : Dict K V) (p : ℕ) (it : DictIterator K V) : Prop :=
  (it.table = false ∧ it.index = p - 1 ∧ p ≤ d.ht0.buckets.length) ∨
    (it.table = true ∧ it.index = (p : ℤ) - d.ht0.buckets.length - 1 ∧
      d.ht0.buckets.length < p ∧ p ≤ d.buckets.length)

namespace DictIterator.At

variable {d : Dict K V} {p : ℕ} {it : DictIterator K V}

theorem index_ne (h : it.At d p) : it.index ≠ -2 := by
  rcases h with ⟨-, hindex, -⟩ | ⟨-, hindex, hlt, -⟩
  · omega
  · omega

/-- Only the place counts. -/
theorem congr (h : it.At d p) {it' : DictIterator K V} (hindex : it'.index = it.index)
    (htable : it'.table = it.table) : it'.At d p := by
  rw [At, hindex, htable]
  exact h

end DictIterator.At

section Loop

variable {d : Dict K V} (hd : d.Sized)

include hd

/-- A round that enters the next bucket. -/
theorem dictIteratorLoop_enter {p : ℕ} (fuel : ℕ) {it : DictIterator K V} {b : List (DictEntry K V)}
    (hat : it.At d p) (hentry : it.entry = []) (hb : d.buckets[p]? = some b) :
    ∃ it' : DictIterator K V, it'.At d (p + 1) ∧ it'.entry = b ∧
      dictIteratorLoop d (fuel + 1) it = dictIteratorFound (dictIteratorLoop d fuel) it' := by
  have hlt : p < d.buckets.length := (List.getElem?_eq_some_iff.mp hb).1
  have hsum : d.buckets.length = d.ht0.buckets.length + d.ht1.buckets.length := List.length_append
  rcases hat with ⟨htable, hindex, hle⟩ | ⟨htable, hindex, hlt₀, hle⟩
  · by_cases hp : p < d.ht0.buckets.length
    · -- inside table 0
      have hbucket : d.ht0.bucket? p = some b := by
        rw [hd.ht0.bucket, ← hb, Dict.buckets, List.getElem?_append_left hp]
      refine ⟨{ it with index := p, entry := b }, Or.inl ⟨htable, by simp, hp⟩, rfl, ?_⟩
      have hround : ¬(dicthtSize d.ht0.sizeExp : ℤ) ≤ it.index + 1 := by
        rw [hd.ht0.size]
        omega
      have hidx : it.index + 1 = p := by omega
      rw [dictIteratorLoop]
      simp only [hentry, htable, Bool.false_eq_true, if_false]
      rw [if_neg hround, hidx, Int.toNat_natCast, hbucket, Option.bind_some]
    · -- from table 0 to table 1
      have hpeq : p = d.ht0.buckets.length := by omega
      have hbucket : d.ht1.bucket? 0 = some b := by
        rw [hd.ht1.bucket, ← hb, Dict.buckets, hpeq, List.getElem?_append_right le_rfl, Nat.sub_self]
      have hre : dictIsRehashing d = true := by
        refine hd.rehashing.mpr fun hnil ↦ ?_
        rw [hnil, List.length_nil] at hsum
        omega
      refine ⟨{ it with index := 0, table := true, entry := b },
        Or.inr ⟨rfl, by simp [hpeq], by omega, hlt⟩, rfl, ?_⟩
      have hround : (dicthtSize d.ht0.sizeExp : ℤ) ≤ it.index + 1 := by
        rw [hd.ht0.size]
        omega
      rw [dictIteratorLoop]
      simp only [hentry, htable, Bool.false_eq_true, if_false]
      rw [if_pos hround, if_pos ⟨hre, trivial⟩, hbucket, Option.bind_some]
  · -- inside table 1
    have hbucket : d.ht1.bucket? (p - d.ht0.buckets.length) = some b := by
      rw [hd.ht1.bucket, ← hb, Dict.buckets, List.getElem?_append_right hlt₀.le]
    refine ⟨{ it with index := (p - d.ht0.buckets.length : ℕ), entry := b },
      Or.inr ⟨htable, by simp only; omega, by omega, hlt⟩, rfl, ?_⟩
    have hround : ¬(dicthtSize d.ht1.sizeExp : ℤ) ≤ it.index + 1 := by
      rw [hd.ht1.size]
      omega
    have hidx : it.index + 1 = (p - d.ht0.buckets.length : ℕ) := by omega
    rw [dictIteratorLoop]
    simp only [hentry, htable, if_true]
    rw [if_neg hround, hidx, Int.toNat_natCast, hbucket, Option.bind_some]

/-- The round behind the last bucket. -/
theorem dictIteratorLoop_end {fuel : ℕ} {it : DictIterator K V} (hat : it.At d d.buckets.length)
    (hentry : it.entry = []) :
    dictIteratorLoop d (fuel + 1) it = some ({ it with index := -2 }, false) := by
  have hsum : d.buckets.length = d.ht0.buckets.length + d.ht1.buckets.length := List.length_append
  rcases hat with ⟨htable, hindex, hle⟩ | ⟨htable, hindex, hlt₀, hle⟩
  · have hround : (dicthtSize d.ht0.sizeExp : ℤ) ≤ it.index + 1 := by
      rw [hd.ht0.size]
      omega
    have hre : ¬dictIsRehashing d = true := by
      rw [hd.rehashing, not_not, ← List.length_eq_zero_iff]
      omega
    rw [dictIteratorLoop]
    simp only [hentry, htable, Bool.false_eq_true, if_false]
    rw [if_pos hround, if_neg fun h ↦ hre h.1]
  · have hround : (dicthtSize d.ht1.sizeExp : ℤ) ≤ it.index + 1 := by
      rw [hd.ht1.size]
      omega
    rw [dictIteratorLoop]
    simp only [hentry, htable, if_true]
    rw [if_pos hround, if_neg fun h ↦ Bool.false_ne_true h.2.symm]

end Loop

/-! ## What the states of the iterator mean -/

/-- The iterator is at the entry `x`; behind it there are `ys`. -/
def DictIterator.AtEntry (d : Dict K V) (readed : Bool) (x : DictEntry K V)
    (ys : List (DictEntry K V)) (it : DictIterator K V) : Prop :=
  ∃ p chain, it.At d p ∧ it.entry = x :: chain ∧ it.nextEntry = chain ∧ it.readed = readed ∧
    ys = chain ++ (d.buckets.drop p).flatten

/-- What `has_next` does with `ys` still to come. -/
def DictHasNext (d : Dict K V) (ys : List (DictEntry K V))
    (r : Option (DictIterator K V × Bool)) : Prop :=
  match ys with
  | [] => ∃ it, r = some (it, false) ∧ it.index = -2
  | y :: ys => ∃ it, r = some (it, true) ∧ it.AtEntry d false y ys

/-- The loop, from the end of a chain on. -/
theorem dictIteratorLoop_spec {d : Dict K V} (hd : d.Sized) :
    ∀ (rem : List (List (DictEntry K V))) (p fuel : ℕ) (it : DictIterator K V), it.At d p →
      it.entry = [] → d.buckets.drop p = rem → rem.length < fuel →
      DictHasNext d rem.flatten (dictIteratorLoop d fuel it) := by
  intro rem
  induction rem with
  | nil =>
    intro p fuel it hat hentry hrem hfuel
    obtain ⟨fuel, rfl⟩ : ∃ f, fuel = f + 1 := ⟨fuel - 1, by simp at hfuel; omega⟩
    have hp : p = d.buckets.length := by
      have hle : d.buckets.length ≤ p := List.drop_eq_nil_iff.mp hrem
      have hsum : d.buckets.length = d.ht0.buckets.length + d.ht1.buckets.length :=
        List.length_append
      rcases hat with ⟨-, -, h⟩ | ⟨-, -, -, h⟩ <;> omega
    exact ⟨_, dictIteratorLoop_end hd (hp ▸ hat) hentry, rfl⟩
  | cons b rem ih =>
    intro p fuel it hat hentry hrem hfuel
    rw [List.length_cons] at hfuel
    obtain ⟨fuel, rfl⟩ : ∃ f, fuel = f + 1 := ⟨fuel - 1, by omega⟩
    have hb : d.buckets[p]? = some b := by
      rw [← List.head?_drop, hrem, List.head?_cons]
    have hrem' : d.buckets.drop (p + 1) = rem := by
      rw [← List.tail_drop, hrem, List.tail_cons]
    obtain ⟨it', hat', hentry', hloop⟩ := dictIteratorLoop_enter hd fuel hat hentry hb
    rw [hloop, dictIteratorFound, hentry']
    cases b with
    | nil => exact ih (p + 1) fuel it' hat' hentry' hrem' (Nat.lt_of_succ_lt_succ hfuel)
    | cons y next =>
      rw [List.flatten_cons, List.cons_append]
      exact ⟨_, rfl, p + 1, next, hat'.congr rfl rfl, rfl, rfl, rfl, by rw [hrem']⟩

section Impl

variable {d : Dict K V} (hd : d.Sized)

include hd

private theorem length_drop_buckets_lt (p : ℕ) :
    (d.buckets.drop p).length < dictSlots d + 1 := by
  rw [List.length_drop, dictSlots, hd.ht0.size, hd.ht1.size, Dict.buckets, List.length_append]
  omega

/-- `has_next` with an entry at hand goes to the next one. -/
theorem dictIteratorHasNext_atEntry {readed : Bool} {x : DictEntry K V}
    {ys : List (DictEntry K V)} {it : DictIterator K V} (h : it.AtEntry d readed x ys) :
    DictHasNext d ys (dictIteratorHasNext d it) := by
  obtain ⟨p, chain, hat, hentry, hnext, -, rfl⟩ := h
  rw [dictIteratorHasNext, if_neg hat.index_ne, dictIteratorLoop]
  simp only [hentry, hnext, dictIteratorFound]
  cases chain with
  | nil =>
    exact dictIteratorLoop_spec hd _ p (dictSlots d + 1) { it with entry := [], nextEntry := [] }
      (hat.congr rfl rfl) rfl rfl (length_drop_buckets_lt hd p)
  | cons y chain =>
    exact ⟨_, rfl, p, chain, hat.congr rfl rfl, rfl, rfl, rfl, rfl⟩

omit hd in
/-- `next` hands out the entry at hand. -/
theorem dictIteratorNext_atEntry {x : DictEntry K V} {ys : List (DictEntry K V)}
    {it : DictIterator K V} (h : it.AtEntry d false x ys) :
    ∃ it', dictIteratorNext d it = some (it', some x) ∧ it'.AtEntry d true x ys := by
  obtain ⟨p, chain, hat, hentry, hnext, hreaded, hys⟩ := h
  refine ⟨{ it with readed := true }, ?_, p, chain, hat.congr rfl rfl, hentry, hnext, rfl, hys⟩
  rw [dictIteratorNext, if_neg hat.index_ne, hreaded, if_neg Bool.false_ne_true, dictIteratorRead,
    hentry]

/-- The first `has_next`. -/
theorem dictIteratorHasNext_new :
    DictHasNext d d.entries (dictIteratorHasNext d dictGetLatteIterator) := by
  have hindex : ¬(dictGetLatteIterator : DictIterator K V).index = -2 := fun h ↦ by cases h
  rw [Dict.entries_eq_flatten, dictIteratorHasNext, if_neg hindex]
  exact dictIteratorLoop_spec hd d.buckets 0 (dictSlots d + 2) _
    (Or.inl ⟨rfl, rfl, Nat.zero_le _⟩) rfl rfl
    ((length_drop_buckets_lt hd 0).trans (Nat.lt_succ_self _))

/-- The iterator moves on in `has_next`; behind the first call, `next` alone does as well. -/
def dictIteratorImpl : Impl (dictIteratorStep d) true true d.entries where
  Ready p rest it :=
    match p with
    | none => it = dictGetLatteIterator ∧ rest = d.entries
    | some x => it.AtEntry d true x rest
  Fetched x rest it := it.AtEntry d false x rest
  Ended it := it.index = -2
  hasNext_cons {p y ys it} h := by
    cases p with
    | none =>
      obtain ⟨rfl, hrest⟩ := h
      have hnew := dictIteratorHasNext_new hd
      rw [← hrest] at hnew
      obtain ⟨it', hhas, hat⟩ := hnew
      exact ⟨it', by rw [dictIteratorStep, hhas]; rfl, hat⟩
    | some x =>
      obtain ⟨it', hhas, hat⟩ := dictIteratorHasNext_atEntry hd h
      exact ⟨it', by rw [dictIteratorStep, hhas]; rfl, hat⟩
  hasNext_nil {p it} h := by
    cases p with
    | none =>
      obtain ⟨rfl, hrest⟩ := h
      have hnew := dictIteratorHasNext_new hd
      rw [← hrest] at hnew
      obtain ⟨it', hhas, hend⟩ := hnew
      exact ⟨it', by rw [dictIteratorStep, hhas]; rfl, hend⟩
    | some x =>
      obtain ⟨it', hhas, hend⟩ := dictIteratorHasNext_atEntry hd h
      exact ⟨it', by rw [dictIteratorStep, hhas]; rfl, hend⟩
  next_fetched h := by
    obtain ⟨it', hnext, hat⟩ := dictIteratorNext_atEntry h
    exact ⟨it', by rw [dictIteratorStep, hnext]; rfl, hat⟩
  skip_cons h := by
    obtain ⟨it', hhas, hat⟩ := dictIteratorHasNext_atEntry hd h
    exact ⟨it', by rw [dictIteratorStep, hhas]; rfl, hat⟩
  skip_nil h := by
    obtain ⟨it', hhas, -⟩ := dictIteratorHasNext_atEntry hd h
    exact ⟨it', by rw [dictIteratorStep, hhas]; rfl⟩
  next_start {y ys it it'} h := by
    -- nothing has been found yet, and `readed` does not say so
    obtain ⟨rfl, -⟩ := h
    exact fun hstep ↦ nomatch hstep
  next_direct _ {x y ys it} h := by
    obtain ⟨it₁, hhas, p, chain, hat₁, hentry₁, hnext₁, hreaded₁, hys⟩ :=
      dictIteratorHasNext_atEntry hd h
    obtain ⟨p₀, chain₀, hat, hentry, hnext, hreaded, -⟩ := h
    refine ⟨{ it₁ with readed := true }, ?_, p, chain, hat₁.congr rfl rfl, hentry₁, hnext₁, rfl, hys⟩
    rw [dictIteratorStep, dictIteratorNext, if_neg hat.index_ne, hreaded, if_pos rfl, hhas,
      Option.bind_some, if_pos rfl, dictIteratorRead, hentry₁]
    rfl
  next_again hdirect := nomatch hdirect
  ended_false _ {it} h := ⟨it, by rw [dictIteratorStep, dictIteratorHasNext, if_pos h]; rfl, h⟩
  ended_true hagain := nomatch hagain

end Impl

end LatteC
