import LatteC.Dict.Basic
import LatteC.Foundation.KeyedList
import Mathlib.Tactic.NormNum

/-!
# What every dictionary operation preserves

`Dict.Inv` is the layout invariant: one live table, or two during a rehash with the buckets of table
0 below `rehashidx` already empty; every entry in the bucket its hash names; no two entries with
equal keys anywhere. The contents are read off as `Dict.toMap`, a finite map from keys, taken
modulo `keyCompare`, to entries.

Moving buckets and allocating tables permute `Dict.entries` and hence leave `toMap` alone; the three
operations on keys are then one lemma each, stated on `toMap` only. A caller never has to
look at a table.
-/

namespace LatteC

variable {K V : Type}

/-! ## Keys modulo comparison -/

namespace DictFunc

variable (F : DictFunc K)

/-- Keys are equal when the comparison says so. -/
def setoid : Setoid K := ⟨fun a b ↦ F.keyCompare a b = true, F.keyCompare_equivalence⟩

/-- A key, as the dictionary sees it. -/
abbrev Key : Type := Quotient F.setoid

/-- The class of a key. -/
def cls (k : K) : F.Key := Quotient.mk F.setoid k

instance : DecidableEq F.Key :=
  @Quotient.decidableEq K F.setoid fun a b ↦ decEq (F.keyCompare a b) true

theorem cls_eq_cls_iff {a b : K} : F.cls a = F.cls b ↔ F.keyCompare a b = true :=
  Quotient.eq (r := F.setoid)

theorem slot_eq_of_keyCompare {a b : K} (h : F.keyCompare a b = true) (e : Option ℕ) :
    F.slot e a = F.slot e b := by
  rw [slot, slot, F.hash_eq_of_keyCompare a b h]

theorem slot_lt (e : ℕ) (k : K) : F.slot (some e) k < 2 ^ e := by
  rw [slot, dicthtSizeMask, Nat.and_two_pow_sub_one_eq_mod]
  exact Nat.mod_lt _ (Nat.two_pow_pos e)

end DictFunc

/-! ## The invariant -/

/-- All entries of a table, bucket by bucket. -/
def DictTable.entries (t : DictTable K V) : List (DictEntry K V) := (t.table.getD []).flatten

/-- An allocated table: `2 ^ e` buckets, every entry in its own, `used` counting them. -/
structure DictTable.Live (F : DictFunc K) (e : ℕ) (bs : List (List (DictEntry K V)))
    (t : DictTable K V) : Prop where
  table : t.table = some bs
  sizeExp : t.sizeExp = some e
  used : t.used = bs.flatten.length
  length : bs.length = 2 ^ e
  placed : Buckets.Placed (fun x ↦ F.slot (some e) x.key) bs

/-- All entries of the dictionary. -/
def Dict.entries (d : Dict K V) : List (DictEntry K V) := d.ht0.entries ++ d.ht1.entries

/-- No rehash in progress: table 1 is not there, table 0 may not be there yet. -/
structure Dict.Idle (F : DictFunc K) (d : Dict K V) : Prop where
  rehashidx : d.rehashidx = none
  ht1 : d.ht1 = dictReset
  ht0 : d.ht0 = dictReset ∨ ∃ e bs, d.ht0.Live F e bs

/-- A rehash in progress at index `r`: both tables are live and table 0 is empty below `r`. -/
structure Dict.Rehashing (F : DictFunc K) (r : ℕ) (d : Dict K V) : Prop where
  rehashidx : d.rehashidx = some r
  ht1 : ∃ e bs, d.ht1.Live F e bs
  ht0 : ∃ e bs, d.ht0.Live F e bs ∧ r ≤ 2 ^ e ∧ ∀ i < r, bs[i]? = some []

/-- The layout invariant of a dictionary. Only a safe iterator pauses a rehash, and none is ever made. -/
structure Dict.Inv (F : DictFunc K) (d : Dict K V) : Prop where
  pauserehash : d.pauserehash = 0
  tables : d.Idle F ∨ ∃ r, d.Rehashing F r
  distinct : (d.entries.map fun e ↦ F.cls e.key).Nodup

/-- The finite map a dictionary stands for. -/
def Dict.toMap (F : DictFunc K) (d : Dict K V) : Finmap fun _ : F.Key ↦ DictEntry K V :=
  KeyedList.toMap (fun e ↦ F.cls e.key) d.entries

@[simp] theorem entries_dictReset : (dictReset : DictTable K V).entries = [] := rfl

theorem DictTable.Live.entries {F : DictFunc K} {e : ℕ} {bs : List (List (DictEntry K V))}
    {t : DictTable K V} (h : t.Live F e bs) : t.entries = bs.flatten := by
  rw [DictTable.entries, h.table, Option.getD_some]

theorem DictTable.Live.used_eq {F : DictFunc K} {e : ℕ} {bs : List (List (DictEntry K V))}
    {t : DictTable K V} (h : t.Live F e bs) : t.used = t.entries.length := by
  rw [h.used, h.entries]

theorem DictTable.Live.bucket? {F : DictFunc K} {e : ℕ} {bs : List (List (DictEntry K V))}
    {t : DictTable K V} (h : t.Live F e bs) (i : ℕ) : t.bucket? i = bs[i]? := by
  rw [DictTable.bucket?, h.table, Option.bind_some]

theorem Dict.Idle.used_ht1 {F : DictFunc K} {d : Dict K V} (h : d.Idle F) : d.ht1.used = 0 := by
  rw [h.ht1]
  rfl

theorem Dict.Idle.entries {F : DictFunc K} {d : Dict K V} (h : d.Idle F) :
    d.entries = d.ht0.entries := by
  rw [Dict.entries, h.ht1, entries_dictReset, List.append_nil]

theorem Dict.Idle.dictIsRehashing {F : DictFunc K} {d : Dict K V} (h : d.Idle F) :
    dictIsRehashing d = false := by
  rw [LatteC.dictIsRehashing, h.rehashidx]
  rfl

theorem Dict.Rehashing.dictIsRehashing {F : DictFunc K} {d : Dict K V} {r : ℕ}
    (h : d.Rehashing F r) : dictIsRehashing d = true := by
  rw [LatteC.dictIsRehashing, h.rehashidx]
  rfl

theorem Dict.Inv.dictSize_eq_length {F : DictFunc K} {d : Dict K V} (h : d.Inv F) :
    dictSize d = d.entries.length := by
  rw [dictSize]
  rcases h.tables with hi | ⟨r, hr⟩
  · rw [hi.used_ht1, hi.entries, Nat.add_zero]
    rcases hi.ht0 with h0 | ⟨e, bs, h0⟩
    · rw [h0]
      rfl
    · exact h0.used_eq
  · obtain ⟨e₀, bs₀, h0, -⟩ := hr.ht0
    obtain ⟨e₁, bs₁, h1⟩ := hr.ht1
    rw [Dict.entries, List.length_append, h0.used_eq, h1.used_eq]

/-- `dict_size` is the number of mapped keys. -/
theorem Dict.Inv.dictSize_eq_card {F : DictFunc K} {d : Dict K V} (h : d.Inv F) :
    dictSize d = (d.toMap F).keys.card := by
  rw [h.dictSize_eq_length, Dict.toMap, KeyedList.card_keys_toMap h.distinct]

theorem inv_dictNew (F : DictFunc K) : (dictNew : Dict K V).Inv F :=
  ⟨rfl, Or.inl ⟨rfl, rfl, Or.inl rfl⟩, List.nodup_nil⟩

@[simp] theorem toMap_dictNew (F : DictFunc K) : (dictNew : Dict K V).toMap F = ∅ := rfl

/-- Permuting the entries between the buckets is invisible in the map. -/
theorem Dict.Inv.toMap_eq_of_perm {F : DictFunc K} {d d' : Dict K V} (h : d.Inv F)
    (hp : d'.entries.Perm d.entries) : d'.toMap F = d.toMap F :=
  (KeyedList.toMap_perm h.distinct hp.symm).symm

theorem nodup_cls_of_perm {F : DictFunc K} {l l' : List (DictEntry K V)} (hp : l'.Perm l)
    (h : (l.map fun e ↦ F.cls e.key).Nodup) : (l'.map fun e ↦ F.cls e.key).Nodup :=
  ((hp.map _).nodup_iff).mpr h

/-! ## Writing one bucket -/

namespace DictTable.Live

variable {F : DictFunc K} {e : ℕ} {bs : List (List (DictEntry K V))} {t : DictTable K V}

/-- Every slot a key can name is there. -/
theorem exists_bucket (h : t.Live F e bs) (key : K) :
    ∃ b, bs[F.slot t.sizeExp key]? = some b := by
  have hlt : F.slot t.sizeExp key < bs.length := by
    rw [h.sizeExp, h.length]
    exact F.slot_lt e key
  exact ⟨bs[F.slot t.sizeExp key], List.getElem?_eq_getElem hlt⟩

/-- Replacing a bucket by another with entries of the same slot, with `used` adjusted. -/
theorem setBucket (h : t.Live F e bs) (i : ℕ) (b' : List (DictEntry K V)) {n : ℕ}
    (hb' : ∀ x ∈ b', F.slot (some e) x.key = i) (hn : n = (bs.set i b').flatten.length) :
    DictTable.Live F e (bs.set i b') { t.setBucket i b' with used := n } where
  table := by rw [DictTable.setBucket, h.table]; rfl
  sizeExp := h.sizeExp
  used := hn
  length := by rw [List.length_set, h.length]
  placed := Buckets.placed_set h.placed hb'

/-- Linking an entry into the bucket of its key adds exactly that entry. -/
theorem link (h : t.Live F e bs) (x : DictEntry K V) :
    ∃ t' b bs', t.link (F.slot t.sizeExp x.key) x = some t' ∧ t'.Live F e bs' ∧
      bs[F.slot t.sizeExp x.key]? = some b ∧ bs' = bs.set (F.slot t.sizeExp x.key) (x :: b) ∧
      bs'.flatten.Perm (x :: bs.flatten) := by
  obtain ⟨b, hb⟩ := h.exists_bucket x.key
  have hperm := Buckets.flatten_set_cons_perm hb x
  refine ⟨{ t.setBucket (F.slot t.sizeExp x.key) (x :: b) with used := t.used + 1 }, b, _, ?_,
    h.setBucket _ _ ?_ ?_, hb, rfl, hperm⟩
  · rw [DictTable.link, h.bucket?, hb, Option.map_some]
  · intro y hy
    rcases List.mem_cons.mp hy with rfl | hy
    · rw [h.sizeExp]
    · rw [h.sizeExp] at hb ⊢
      exact h.placed _ b hb y hy
  · rw [hperm.length_eq, h.used, List.length_cons]

/-- What a chain walk in the bucket of `key` says about the whole table. -/
theorem chainFind (h : t.Live F e bs) {key : K} {b : List (DictEntry K V)}
    (hb : bs[F.slot t.sizeExp key]? = some b) :
    (∀ he, dictChainFind F key b = some he → he ∈ t.entries ∧ F.keyCompare key he.key = true) ∧
      (dictChainFind F key b = none → ∀ x ∈ t.entries, F.keyCompare key x.key ≠ true) := by
  rw [h.entries]
  refine ⟨fun he hfind ↦ ?_, fun hnone x hx hcmp ↦ ?_⟩
  · exact ⟨Buckets.mem_flatten_of_mem hb (List.mem_of_find?_eq_some hfind),
      List.find?_some (p := fun x : DictEntry K V ↦ F.keyCompare key x.key) hfind⟩
  · have hslot : F.slot t.sizeExp key = F.slot (some e) x.key := by
      rw [h.sizeExp, F.slot_eq_of_keyCompare hcmp]
    have hxb : x ∈ b := by
      rw [hslot] at hb
      exact Buckets.mem_of_mem_flatten h.placed hx hb
    exact List.find?_eq_none.mp hnone x hxb hcmp

/-- Unlinking the entry a chain walk has found takes exactly that entry out. -/
theorem unlink (h : t.Live F e bs) {key : K} {b : List (DictEntry K V)} {he : DictEntry K V}
    (hb : bs[F.slot t.sizeExp key]? = some b) (hfind : dictChainFind F key b = some he) :
    ∃ bs', (t.unlink F (F.slot t.sizeExp key) b key).Live F e bs' ∧
      bs.flatten.Perm (he :: bs'.flatten) := by
  set i := F.slot t.sizeExp key with hi
  have herase : b.Perm (he :: b.eraseP fun x ↦ F.keyCompare key x.key) :=
    Buckets.perm_cons_eraseP hfind
  obtain ⟨rest, h₁, h₂⟩ := Buckets.flatten_set_perm hb
    (b.eraseP fun x ↦ F.keyCompare key x.key)
  have hperm : bs.flatten.Perm
      (he :: (bs.set i (b.eraseP fun x ↦ F.keyCompare key x.key)).flatten) :=
    h₁.trans ((herase.append_right rest).trans (h₂.symm.cons he))
  refine ⟨_, h.setBucket _ _ ?_ ?_, hperm⟩
  · intro x hx
    rw [hi, h.sizeExp] at hb ⊢
    exact h.placed _ b hb x (List.mem_of_mem_eraseP hx)
  · have := hperm.length_eq
    rw [List.length_cons] at this
    rw [h.used]
    omega

end DictTable.Live

/-! ## Rehashing permutes the entries -/

/-- Skipping empty buckets stops at a chain, or gives up at an index behind which there is still
one. It never runs off the table. -/
theorem dictSkipEmpty_spec {F : DictFunc K} {e : ℕ} {bs : List (List (DictEntry K V))}
    {t : DictTable K V} (h : t.Live F e bs) :
    ∀ (ev idx last : ℕ) (c : List (DictEntry K V)), 1 ≤ ev → idx ≤ last → bs[last]? = some c →
      c ≠ [] →
      (∃ r, dictSkipEmpty t ev idx = some (.exhausted r) ∧ r ≤ last ∧
        ∀ i, idx ≤ i → i < r → bs[i]? = some []) ∨
      ∃ r chain ev', dictSkipEmpty t ev idx = some (.found r chain ev') ∧ 1 ≤ ev' ∧
        bs[r]? = some chain ∧ ∀ i, idx ≤ i → i < r → bs[i]? = some [] := by
  intro ev
  induction ev with
  | zero => intro _ _ _ h1; omega
  | succ ev ih =>
    intro idx last c _ hle hlast hc
    have hlt : last < bs.length := (List.getElem?_eq_some_iff.mp hlast).1
    rw [dictSkipEmpty, h.bucket?, List.getElem?_eq_getElem (hle.trans_lt hlt)]
    cases hb : bs[idx] with
    | cons x xs =>
      right
      refine ⟨idx, x :: xs, ev + 1, rfl, by omega, ?_, fun i h₁ h₂ ↦ by omega⟩
      rw [List.getElem?_eq_getElem (hle.trans_lt hlt), hb]
    | nil =>
      have hidx : bs[idx]? = some [] := by rw [List.getElem?_eq_getElem (hle.trans_lt hlt), hb]
      have hne : idx ≠ last := by
        rintro rfl
        exact hc (Option.some.inj (hlast.symm.trans hidx))
      have hextend : ∀ {r : ℕ}, (∀ i, idx + 1 ≤ i → i < r → bs[i]? = some []) →
          ∀ i, idx ≤ i → i < r → bs[i]? = some [] := by
        intro r hr i h₁ h₂
        rcases Nat.eq_or_lt_of_le h₁ with rfl | h₁
        · exact hidx
        · exact hr i h₁ h₂
      by_cases hev : ev = 0
      · left
        refine ⟨idx + 1, by simp only [if_pos hev], by omega, hextend fun i h₁ h₂ ↦ by omega⟩
      · simp only [if_neg hev]
        rcases ih (idx + 1) last c (by omega) (by omega) hlast hc with
          ⟨r, hr, hrl, hempty⟩ | ⟨r, chain, ev', hr, hev', hchain, hempty⟩
        · exact Or.inl ⟨r, hr, hrl, hextend hempty⟩
        · exact Or.inr ⟨r, chain, ev', hr, hev', hchain, hextend hempty⟩

theorem dictMoveChain_spec {F : DictFunc K} {e : ℕ} :
    ∀ (chain : List (DictEntry K V)) {bs : List (List (DictEntry K V))} {t : DictTable K V},
      t.Live F e bs → ∃ t' bs', dictMoveChain F chain t = some t' ∧ t'.Live F e bs' ∧
        bs'.flatten.Perm (chain ++ bs.flatten) := by
  intro chain
  induction chain with
  | nil => exact fun {bs t} h ↦ ⟨t, bs, rfl, h, List.Perm.refl _⟩
  | cons x xs ih =>
    intro bs t h
    obtain ⟨t₁, -, bs₁, hlink, h₁, -, -, hp₁⟩ := h.link x
    obtain ⟨t₂, bs₂, hmove, h₂, hp₂⟩ := ih h₁
    refine ⟨t₂, bs₂, by rw [dictMoveChain, hlink, Option.bind_some, hmove], h₂, ?_⟩
    exact hp₂.trans ((hp₁.append_left xs).trans List.perm_middle)

/-- A dictionary whose rehash is in progress has a non-empty bucket at or behind `rehashidx` as
long as table 0 is not empty. -/
theorem exists_chain_of_used_ne_zero {F : DictFunc K} {r e : ℕ}
    {bs : List (List (DictEntry K V))} {t : DictTable K V} (h : t.Live F e bs)
    (hempty : ∀ i < r, bs[i]? = some []) (hused : t.used ≠ 0) :
    ∃ last c, r ≤ last ∧ bs[last]? = some c ∧ c ≠ [] := by
  rw [h.used] at hused
  obtain ⟨x, hx⟩ := List.exists_mem_of_length_pos (Nat.pos_of_ne_zero hused)
  obtain ⟨c, hc, hxc⟩ := List.mem_flatten.mp hx
  obtain ⟨last, hlast⟩ := List.mem_iff_getElem?.mp hc
  refine ⟨last, c, ?_, hlast, List.ne_nil_of_mem hxc⟩
  by_contra hlt
  rw [hempty last (by omega)] at hlast
  exact List.ne_nil_of_mem hxc (Option.some.inj hlast).symm

theorem dictRehashLoop_spec (F : DictFunc K) :
    ∀ (n ev : ℕ) (d : Dict K V) (r : ℕ), 1 ≤ ev → d.Rehashing F r →
      ∃ d' b r', dictRehashLoop F n ev d = some (d', b) ∧ d'.Rehashing F r' ∧
        d'.entries.Perm d.entries ∧ d'.pauserehash = d.pauserehash := by
  intro n
  induction n with
  | zero => exact fun ev d r _ h ↦ ⟨d, false, r, rfl, h, List.Perm.refl _, rfl⟩
  | succ n ih =>
    intro ev d r hev h
    by_cases hused : d.ht0.used = 0
    · exact ⟨d, false, r, by rw [dictRehashLoop, if_pos hused], h, List.Perm.refl _, rfl⟩
    obtain ⟨e₀, bs₀, h0, hr, hempty⟩ := h.ht0
    obtain ⟨e₁, bs₁, h1⟩ := h.ht1
    obtain ⟨last, c, hle, hlast, hc⟩ := exists_chain_of_used_ne_zero h0 hempty hused
    have hlt : last < 2 ^ e₀ := h0.length ▸ (List.getElem?_eq_some_iff.mp hlast).1
    have hassert : ¬dicthtSize d.ht0.sizeExp ≤ r := by
      rw [h0.sizeExp, dicthtSize]
      omega
    rw [dictRehashLoop, if_neg hused, h.rehashidx]
    simp only [if_neg hassert]
    have hbelow : ∀ {r' : ℕ}, (∀ i, r ≤ i → i < r' → bs₀[i]? = some []) →
        ∀ i < r', bs₀[i]? = some [] := by
      intro r' h' i hi
      rcases lt_or_ge i r with hir | hir
      · exact hempty i hir
      · exact h' i hir hi
    rcases dictSkipEmpty_spec h0 ev r last c hev hle hlast hc with
      ⟨r', hskip, hr', hskipped⟩ | ⟨r', chain, ev', hskip, hev', hchain, hskipped⟩
    · -- the visits ran out: only `rehashidx` has moved
      simp only [hskip]
      exact ⟨_, true, r', rfl,
        ⟨rfl, ⟨e₁, bs₁, h1⟩, ⟨e₀, bs₀, h0, by omega, hbelow hskipped⟩⟩, List.Perm.refl _, rfl⟩
    · -- one bucket moves over, then the loop goes on
      obtain ⟨t, bs₁', hmove, ht, hp₁⟩ := dictMoveChain_spec chain h1
      obtain ⟨rest, hp, hp'⟩ := Buckets.flatten_set_perm hchain []
      have hr'lt : r' < 2 ^ e₀ := h0.length ▸ (List.getElem?_eq_some_iff.mp hchain).1
      have hused' : d.ht0.used - chain.length = (bs₀.set r' []).flatten.length := by
        have h₁ := hp.length_eq
        have h₂ := hp'.length_eq
        rw [List.length_append] at h₁ h₂
        rw [h0.used, h₁, h₂, List.length_nil]
        omega
      have h0' := h0.setBucket r' [] (by simp) hused'
      have hbelow' : ∀ i < r' + 1, (bs₀.set r' [])[i]? = some [] := by
        intro i hi
        rw [List.getElem?_set]
        split_ifs with hir hlen
        · rfl
        · rw [h0.length] at hlen
          omega
        · exact hbelow hskipped i (by omega)
      simp only [hskip, hmove]
      obtain ⟨d', b, r'', hloop, hre, hperm, hpause⟩ := ih ev'
        { d with
          ht0 := { d.ht0.setBucket r' [] with used := d.ht0.used - chain.length }
          ht1 := t
          rehashidx := some (r' + 1) } (r' + 1) hev'
        ⟨rfl, ⟨e₁, bs₁', ht⟩, ⟨e₀, _, h0', hr'lt, hbelow'⟩⟩
      refine ⟨d', b, r'', hloop, hre, hperm.trans ?_, hpause⟩
      rw [Dict.entries, Dict.entries, h0'.entries, ht.entries, h0.entries, h1.entries]
      have hmoved : ((bs₀.set r' []).flatten ++ bs₁'.flatten).Perm
          (rest ++ chain ++ bs₁.flatten) := by
        rw [List.append_assoc]
        exact hp'.append hp₁
      exact hmoved.trans ((List.perm_append_comm.trans hp.symm).append_right _)

theorem dictRehash_spec {F : DictFunc K} {d : Dict K V} (h : d.Inv F) {n : ℕ} (hn : 1 ≤ n) :
    ∃ d' c, dictRehash F d n = some (d', c) ∧ d'.Inv F ∧ d'.entries.Perm d.entries := by
  rcases h.tables with hi | ⟨r, hr⟩
  · exact ⟨d, 0, by simp [dictRehash, hi.dictIsRehashing], h, List.Perm.refl _⟩
  · obtain ⟨d', b, r', hloop, hre, hperm, hpause⟩ :=
      dictRehashLoop_spec F n (n * 10) d r (by omega) hr
    have hnd := nodup_cls_of_perm hperm h.distinct
    rw [dictRehash, if_pos hr.dictIsRehashing, hloop]
    cases b with
    | true => exact ⟨d', 1, rfl, ⟨hpause.trans h.pauserehash, Or.inr ⟨r', hre⟩, hnd⟩, hperm⟩
    | false =>
      by_cases hused : d'.ht0.used = 0
      · -- table 0 is empty: table 1 takes its place
        obtain ⟨e₀, bs₀, h0, -⟩ := hre.ht0
        obtain ⟨e₁, bs₁, h1⟩ := hre.ht1
        have h0nil : d'.ht0.entries = [] := by
          rw [← List.length_eq_zero_iff, ← h0.used_eq, hused]
        set d'' : Dict K V := { d' with ht0 := d'.ht1, ht1 := dictReset, rehashidx := none }
        have hentries : d''.entries = d'.entries := by
          rw [Dict.entries, Dict.entries, h0nil, List.nil_append, entries_dictReset,
            List.append_nil]
        refine ⟨d'', 0, by simp only [if_pos hused]; rfl,
          ⟨hpause.trans h.pauserehash, Or.inl ⟨rfl, rfl, Or.inr ⟨e₁, bs₁, h1⟩⟩, ?_⟩, ?_⟩
        · rw [hentries]
          exact hnd
        · rw [hentries]
          exact hperm
      · exact ⟨d', 1, by simp only [if_neg hused],
          ⟨hpause.trans h.pauserehash, Or.inr ⟨r', hre⟩, hnd⟩, hperm⟩

theorem dictRehashStep_spec {F : DictFunc K} {d : Dict K V} (h : d.Inv F) :
    ∃ d', dictRehashStep F d = some d' ∧ d'.Inv F ∧ d'.entries.Perm d.entries := by
  rw [dictRehashStep]
  split_ifs with hr hp
  · obtain ⟨d', c, hd', hinv, hperm⟩ := dictRehash_spec h (n := 1) le_rfl
    exact ⟨d', by rw [hd', Option.map_some], hinv, hperm⟩
  · exact absurd h.pauserehash hp
  · exact ⟨d, rfl, h, List.Perm.refl _⟩

/-! ## Growing adds no entry -/

private theorem live_replicate (F : DictFunc K) (e : ℕ) :
    DictTable.Live F e (List.replicate (2 ^ e) ([] : List (DictEntry K V)))
      ⟨some (List.replicate (2 ^ e) []), 0, some e⟩ where
  table := rfl
  sizeExp := rfl
  used := by rw [Buckets.flatten_replicate_nil, List.length_nil]
  length := List.length_replicate
  placed := Buckets.placed_replicate _

theorem dictExpand_spec {F : DictFunc K} {d : Dict K V} (h : d.Inv F) (size : ℕ) :
    (dictExpand d size).1.Inv F ∧ (dictExpand d size).1.entries = d.entries ∧
      ((dictExpand d size).2 = .ok → ∃ e bs, (dictExpand d size).1.ht0.Live F e bs) := by
  rw [dictExpand]
  by_cases h₁ : dictIsRehashing d = true ∨ size < d.ht0.used
  · rw [if_pos h₁]
    exact ⟨h, rfl, by simp⟩
  rw [if_neg h₁]
  simp only
  split_ifs with h₂ h₃
  · exact ⟨h, rfl, by simp⟩
  · exact ⟨h, rfl, by simp⟩
  have hidle : d.Idle F := by
    rcases h.tables with hi | ⟨r, hr⟩
    · exact hi
    · exact absurd (Or.inl hr.dictIsRehashing) h₁
  have hnew := live_replicate (V := V) F (dictNextExp size)
  have hnil := hnew.entries
  rw [Buckets.flatten_replicate_nil] at hnil
  rcases hidle.ht0 with h0 | ⟨e, bs, h0⟩
  · -- the first table
    have hd : d.entries = [] := by rw [hidle.entries, h0, entries_dictReset]
    have hentries : Dict.entries
        { d with ht0 := (⟨some (List.replicate (2 ^ dictNextExp size) []), 0,
          some (dictNextExp size)⟩ : DictTable K V) } = [] := by
      rw [Dict.entries, hnil, hidle.ht1, entries_dictReset, List.append_nil]
    have htab : d.ht0.table = none := by rw [h0]; rfl
    simp only [htab]
    exact ⟨⟨h.pauserehash, Or.inl ⟨hidle.rehashidx, hidle.ht1, Or.inr ⟨_, _, hnew⟩⟩,
      by rw [hentries]; exact List.nodup_nil⟩, by rw [hentries, hd], fun _ ↦ ⟨_, _, hnew⟩⟩
  · -- a second table, and a rehash that starts at its first bucket
    have hentries : Dict.entries
        { d with
          ht1 := (⟨some (List.replicate (2 ^ dictNextExp size) []), 0,
            some (dictNextExp size)⟩ : DictTable K V)
          rehashidx := some 0 } = d.entries := by
      rw [Dict.entries, hnil, List.append_nil, hidle.entries]
    simp only [h0.table]
    exact ⟨⟨h.pauserehash, Or.inr ⟨0, rfl, ⟨_, _, hnew⟩, ⟨e, bs, h0, Nat.zero_le _,
      fun i hi ↦ absurd hi (Nat.not_lt_zero i)⟩⟩, by rw [hentries]; exact h.distinct⟩, hentries,
      fun _ ↦ ⟨e, bs, h0⟩⟩

/-! ### The growth that `_dict_key_index` asks for always succeeds -/

theorem dictNextExpFrom_spec (size : ℕ) : ∀ (fuel e : ℕ), size ≤ 2 ^ (e + fuel) →
    size ≤ 2 ^ dictNextExpFrom size fuel e ∧
      ∀ m, e ≤ m → size ≤ 2 ^ m → dictNextExpFrom size fuel e ≤ m := by
  intro fuel
  induction fuel with
  | zero => exact fun e h ↦ ⟨h, fun m hm _ ↦ hm⟩
  | succ fuel ih =>
    intro e h
    rw [dictNextExpFrom]
    split_ifs with he
    · exact ⟨he, fun m hm _ ↦ hm⟩
    · obtain ⟨h₁, h₂⟩ := ih (e + 1) (by rwa [Nat.add_assoc, Nat.add_comm 1])
      refine ⟨h₁, fun m hm hsize ↦ h₂ m ?_ hsize⟩
      rcases Nat.eq_or_lt_of_le hm with rfl | hm
      · exact absurd hsize he
      · exact hm

/-- For a size that fits, `_dict_next_exp` is large enough and not too large. -/
theorem dictNextExp_spec {size : ℕ} (h : size ≤ 2 ^ 60) :
    size ≤ 2 ^ dictNextExp size ∧ dictNextExp size ≤ 60 := by
  have hlong : ¬2 ^ 63 - 1 ≤ size := by omega
  rw [dictNextExp, if_neg hlong]
  obtain ⟨h₁, h₂⟩ := dictNextExpFrom_spec size 61 2 (h.trans (by norm_num))
  exact ⟨h₁, h₂ 60 (by norm_num) h⟩

/-- Growing a table that is full, for one more entry. Neither the overflow check nor the check for
an unchanged size can fail. -/
theorem dictExpand_ok {F : DictFunc K} {d : Dict K V} (hidle : d.Idle F) {size : ℕ}
    (hused : d.ht0.used ≤ size) (hsize : size ≤ 2 ^ 60)
    (hgrow : ∀ e, d.ht0.sizeExp = some e → 2 ^ e < size) : (dictExpand d size).2 = .ok := by
  obtain ⟨h₁, h₂⟩ := dictNextExp_spec hsize
  have hidx : ¬(dictIsRehashing d = true ∨ size < d.ht0.used) := by
    rw [hidle.dictIsRehashing]
    simpa using hused
  have hpow : 2 ^ dictNextExp size ≤ 2 ^ 60 := Nat.pow_le_pow_right (by norm_num) h₂
  have hfits : ¬(2 ^ dictNextExp size < size ∨
      2 ^ dictNextExp size * 8 % 2 ^ 64 < 2 ^ dictNextExp size) := by
    rw [Nat.mod_eq_of_lt (by omega)]
    omega
  have hnew : some (dictNextExp size) ≠ d.ht0.sizeExp := by
    intro heq
    have := hgrow _ heq.symm
    omega
  rw [dictExpand, if_neg hidx]
  simp only [if_neg hfits, if_neg hnew]
  cases d.ht0.table <;> rfl

/-- After `_dict_expand_if_needed` there is a table to insert into. The bound is the one under
which the entries themselves can be allocated. -/
theorem dictExpandIfNeeded_spec {F : DictFunc K} {d : Dict K V} (h : d.Inv F)
    (hfit : dictSize d < 2 ^ 60) :
    ∃ d', dictExpandIfNeeded F d = (d', .ok) ∧ d'.Inv F ∧ d'.entries = d.entries ∧
      ∃ e bs, d'.ht0.Live F e bs := by
  rw [dictSize] at hfit
  rcases h.tables with hi | ⟨r, hr⟩
  · have hidx : ¬dictIsRehashing d = true := by simp [hi.dictIsRehashing]
    have hgrown : ∀ size, (dictExpand d size).2 = .ok →
        ∃ d', dictExpand d size = (d', .ok) ∧ d'.Inv F ∧ d'.entries = d.entries ∧
          ∃ e bs, d'.ht0.Live F e bs := by
      intro size hok
      obtain ⟨hinv, hent, hlive⟩ := dictExpand_spec h size
      exact ⟨(dictExpand d size).1, by rw [← hok], hinv, hent, hlive hok⟩
    rw [dictExpandIfNeeded, if_neg hidx]
    rcases hi.ht0 with h0 | ⟨e, bs, h0⟩
    · -- the initial size
      have hexp : d.ht0.sizeExp = none := by rw [h0]; rfl
      have hused : d.ht0.used = 0 := by rw [h0]; rfl
      rw [if_pos (by rw [hexp]; rfl)]
      exact hgrown 4 (dictExpand_ok hi (by omega) (by norm_num) (by simp [hexp]))
    · have hsize : dicthtSize d.ht0.sizeExp = 2 ^ e := by rw [h0.sizeExp]; rfl
      rw [hsize, if_neg (Nat.two_pow_pos e).ne']
      split_ifs with hfull
      · refine hgrown _ (dictExpand_ok hi (by omega) (by omega) fun e' he' ↦ ?_)
        rw [h0.sizeExp] at he'
        have := Option.some.inj he' ▸ hfull.1
        omega
      · exact ⟨d, rfl, h, rfl, e, bs, h0⟩
  · obtain ⟨e, bs, h0, -⟩ := hr.ht0
    exact ⟨d, by rw [dictExpandIfNeeded, if_pos hr.dictIsRehashing], h,
      rfl, e, bs, h0⟩

/-! ## Other key functions -/

section Congr

variable {F F' : DictFunc K} {d : Dict K V}

/-- A table is as good for another hash function that agrees on its keys. -/
private theorem live_of_hash_eq {e : ℕ} {bs : List (List (DictEntry K V))} {t : DictTable K V}
    (h : t.Live F e bs)
    (heq : ∀ x ∈ t.entries, F'.hashFunction x.key = F.hashFunction x.key) : t.Live F' e bs where
  table := h.table
  sizeExp := h.sizeExp
  used := h.used
  length := h.length
  placed := by
    intro i b hb x hx
    have hmem : x ∈ t.entries := by
      rw [h.entries]
      exact List.mem_flatten.mpr ⟨b, List.mem_of_getElem? hb, hx⟩
    have hslot : F.slot (some e) x.key = i := h.placed i b hb x hx
    rwa [DictFunc.slot, ← heq x hmem] at hslot

/-- A dictionary is as good for other key functions that hash its keys alike and compare keys
alike. -/
theorem Dict.Inv.congr (h : d.Inv F) (hcmp : F'.keyCompare = F.keyCompare)
    (heq : ∀ x ∈ d.entries, F'.hashFunction x.key = F.hashFunction x.key) : d.Inv F' := by
  have heq₀ := fun x hx ↦ heq x (List.mem_append_left _ hx)
  have heq₁ := fun x hx ↦ heq x (List.mem_append_right _ hx)
  refine ⟨h.pauserehash, ?_, ?_⟩
  · rcases h.tables with hi | ⟨r, hr⟩
    · refine Or.inl ⟨hi.rehashidx, hi.ht1, ?_⟩
      rcases hi.ht0 with h0 | ⟨e, bs, hlive⟩
      · exact Or.inl h0
      · exact Or.inr ⟨e, bs, live_of_hash_eq hlive heq₀⟩
    · obtain ⟨e₁, bs₁, hlive₁⟩ := hr.ht1
      obtain ⟨e₀, bs₀, hlive₀, hle, hempty⟩ := hr.ht0
      exact Or.inr ⟨r, hr.rehashidx, ⟨e₁, bs₁, live_of_hash_eq hlive₁ heq₁⟩,
        ⟨e₀, bs₀, live_of_hash_eq hlive₀ heq₀, hle, hempty⟩⟩
  · have hd := h.distinct
    rw [List.Nodup, List.pairwise_map] at hd ⊢
    refine hd.imp fun hne heq ↦ hne ?_
    rwa [DictFunc.cls_eq_cls_iff, hcmp, ← DictFunc.cls_eq_cls_iff] at heq

end Congr

/-! ## The operations on keys -/

namespace Dict.Inv

variable {F : DictFunc K} {d : Dict K V}

theorem lookup_of_mem (h : d.Inv F) {key : K} {he : DictEntry K V} (hmem : he ∈ d.entries)
    (hcmp : F.keyCompare key he.key = true) : (d.toMap F).lookup (F.cls key) = some he := by
  rw [F.cls_eq_cls_iff.mpr hcmp]
  exact KeyedList.lookup_toMap_of_mem h.distinct hmem

theorem lookup_eq_none {key : K} (hnone : ∀ x ∈ d.entries, F.keyCompare key x.key ≠ true) :
    (d.toMap F).lookup (F.cls key) = none :=
  KeyedList.lookup_toMap_eq_none fun x hx heq ↦ hnone x hx (F.cls_eq_cls_iff.mp heq.symm)

/-- What a search of table 0, and then of table 1 if it is live, finds. It is written out once for
the three operations that each do their own search. -/
inductive Search (F : DictFunc K) (d : Dict K V) (key : K) : Prop
  /-- In table 0. -/
  | inOld {e : ℕ} {bs : List (List (DictEntry K V))} {b : List (DictEntry K V)}
      {he : DictEntry K V} (live : d.ht0.Live F e bs)
      (bucket : bs[F.slot d.ht0.sizeExp key]? = some b)
      (find : dictChainFind F key b = some he)
      (lookup : (d.toMap F).lookup (F.cls key) = some he)
  /-- Not in table 0, and there is no other. -/
  | idle {e : ℕ} {bs : List (List (DictEntry K V))} {b : List (DictEntry K V)}
      (live : d.ht0.Live F e bs) (bucket : bs[F.slot d.ht0.sizeExp key]? = some b)
      (find : dictChainFind F key b = none) (idle : d.Idle F)
      (lookup : (d.toMap F).lookup (F.cls key) = none)
  /-- Not in table 0, so table 1 decides. -/
  | inNew {r e₀ e₁ : ℕ} {bs₀ bs₁ : List (List (DictEntry K V))} {b₀ b₁ : List (DictEntry K V)}
      (live₀ : d.ht0.Live F e₀ bs₀) (bucket₀ : bs₀[F.slot d.ht0.sizeExp key]? = some b₀)
      (find₀ : dictChainFind F key b₀ = none) (live₁ : d.ht1.Live F e₁ bs₁)
      (bucket₁ : bs₁[F.slot d.ht1.sizeExp key]? = some b₁) (rehashing : d.Rehashing F r)
      (lookup : dictChainFind F key b₁ = (d.toMap F).lookup (F.cls key))

theorem search (h : d.Inv F) (hlive : ∃ e bs, d.ht0.Live F e bs) (key : K) : Search F d key := by
  obtain ⟨e, bs, h0⟩ := hlive
  obtain ⟨b, hb⟩ := h0.exists_bucket key
  obtain ⟨hsome, hnone⟩ := h0.chainFind hb
  cases hfind : dictChainFind F key b with
  | some he =>
    obtain ⟨hmem, hcmp⟩ := hsome he hfind
    exact .inOld h0 hb hfind (h.lookup_of_mem (List.mem_append_left _ hmem) hcmp)
  | none =>
    rcases h.tables with hi | ⟨r, hr⟩
    · refine .idle h0 hb hfind hi (lookup_eq_none ?_)
      rw [hi.entries]
      exact hnone hfind
    · obtain ⟨e₁, bs₁, h1⟩ := hr.ht1
      obtain ⟨b₁, hb₁⟩ := h1.exists_bucket key
      obtain ⟨hsome₁, hnone₁⟩ := h1.chainFind hb₁
      refine .inNew h0 hb hfind h1 hb₁ hr ?_
      cases hfind₁ : dictChainFind F key b₁ with
      | some he =>
        obtain ⟨hmem, hcmp⟩ := hsome₁ he hfind₁
        exact (h.lookup_of_mem (List.mem_append_right _ hmem) hcmp).symm
      | none =>
        refine (lookup_eq_none fun x hx ↦ ?_).symm
        rcases List.mem_append.mp hx with hx | hx
        · exact hnone hfind x hx
        · exact hnone₁ hfind₁ x hx

/-- A dictionary with entries has a table. -/
theorem live_of_dictSize_ne_zero (h : d.Inv F) (hsize : dictSize d ≠ 0) :
    ∃ e bs, d.ht0.Live F e bs := by
  rcases h.tables with hi | ⟨r, hr⟩
  · rcases hi.ht0 with h0 | hlive
    · refine absurd ?_ hsize
      rw [h.dictSize_eq_length, hi.entries, h0, entries_dictReset, List.length_nil]
    · exact hlive
  · obtain ⟨e, bs, h0, -⟩ := hr.ht0
    exact ⟨e, bs, h0⟩

theorem lookup_of_dictSize_eq_zero (h : d.Inv F) (hsize : dictSize d = 0) (key : K) :
    (d.toMap F).lookup (F.cls key) = none := by
  rw [h.dictSize_eq_length, List.length_eq_zero_iff] at hsize
  refine lookup_eq_none fun x hx ↦ ?_
  rw [hsize] at hx
  simp at hx

end Dict.Inv

end LatteC
