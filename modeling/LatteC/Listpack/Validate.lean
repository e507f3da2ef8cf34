import LatteC.Listpack.Basic

/-!
# Validation of bytes that nobody vouches for

`list_pack_validate_next` of `src/listpack/listpack.c`, on whatever bytes and at whatever pointer. The size of
an entry is computed from the bytes in 32 bits and may be anything; what keeps the function inside the buffer is
the order of its checks. A fault of the model is a byte read outside the buffer.
-/

namespace LatteC

open Block

/-- `list_pack_validate_next` at any pointer: `pp` is its distance from `lp`. -/
def listPackValidatePointer (lp : List UInt8) (pp : Option ℤ) (lpbytes : ℕ) :
    Option LpValidation :=
  match pp with
  | none => listPackValidateNext lp none lpbytes
  -- in front of the buffer `OUT_OF_RANGE` holds
  | some p => if p < 0 then some .rejected else listPackValidateNext lp (some p.toNat) lpbytes

/-- `list_pack_validate_next` again and again, `steps` times at most: the last result, and the offset
for which it was given. -/
def lpValidateFrom (lp : List UInt8) : (steps p : ℕ) → Option (LpValidation × ℕ)
  | 0, _ => none
  | steps + 1, p =>
    (listPackValidateNext lp (some p) lp.length).bind fun r ↦
      match r with
      | .accepted (some q) => lpValidateFrom lp steps q
      | r => some (r, p)

/-! ## One entry -/

theorem lpOutOfRange_eq_false {lpbytes p : ℕ} :
    lpOutOfRange lpbytes p = false ↔ lpHdrSize ≤ p ∧ p ≤ lpbytes - 1 := by
  rw [lpOutOfRange, Bool.or_eq_false_iff, decide_eq_false_iff_not, decide_eq_false_iff_not,
    Nat.not_lt, Nat.not_lt]

private theorem exists_ite_some {α : Type} {c : Prop} [Decidable c] {a : α} {x : Option α}
    (h : ¬c → ∃ y, x = some y) : ∃ y, (if c then some a else x) = some y := by
  by_cases hc : c
  · exact ⟨a, if_pos hc⟩
  · rw [if_neg hc]
    exact h hc

/-- The size of an entry can be read when as many bytes follow the first one as tell it. -/
theorem exists_listPackCurrentEncodeSizeUnsafe (b : UInt8) {bs : List UInt8}
    (h : listPackCurrentEncodeSizeBytes b ≤ bs.length) :
    ∃ size, listPackCurrentEncodeSizeUnsafe (b :: bs) = some size := by
  rw [listPackCurrentEncodeSizeUnsafe]
  refine exists_ite_some fun h1 ↦ exists_ite_some fun h2 ↦ exists_ite_some fun h3 ↦
    exists_ite_some fun h4 ↦ exists_ite_some fun h5 ↦ exists_ite_some fun h6 ↦
    exists_ite_some fun h7 ↦ ?_
  rw [listPackCurrentEncodeSizeBytes, if_neg h1, if_neg h2, if_neg h3, if_neg h4, if_neg h5,
    if_neg h6, if_neg h7] at h
  -- the two encodings that have their length in further bytes
  by_cases h8 : lpEncodingIs12bitStr b = true
  · rw [if_pos h8] at h ⊢
    cases bs with
    | nil => exact absurd h (by decide)
    | cons b' bs => exact ⟨_, rfl⟩
  · rw [if_neg h8] at h ⊢
    by_cases h9 : lpEncodingIs32bitStr b = true
    · rw [if_pos h9] at h ⊢
      have hread : read bs 0 4 = some ((bs.drop 0).take 4) := if_pos (by omega)
      rw [hread]
      exact ⟨_, rfl⟩
    · rw [if_neg h9]
      exact exists_ite_some fun _ ↦ ⟨0, rfl⟩

/-- Reading a backlen stops after five bytes. -/
theorem exists_lpDecodeBacklenFrom : ∀ (n shift val : ℕ) (bs : List UInt8), n ≤ bs.length →
    ∃ l, lpDecodeBacklenFrom n shift val bs = some l := by
  intro n
  induction n with
  | zero => exact fun shift val bs _ ↦ ⟨_, rfl⟩
  | succ n ih =>
    intro shift val bs hlen
    cases bs with
    | nil => exact absurd hlen (Nat.not_succ_le_zero n)
    | cons b bs =>
      rw [lpDecodeBacklenFrom]
      split_ifs
      · exact ⟨_, rfl⟩
      · exact ih _ _ bs (Nat.le_of_succ_le_succ hlen)

theorem exists_listPackDecodeBacklen (lp : List UInt8) {p : ℕ} (hp : p < lp.length) (h4 : 4 ≤ p) :
    ∃ l, listPackDecodeBacklen lp p = some l := by
  rw [listPackDecodeBacklen, if_pos hp]
  refine exists_lpDecodeBacklenFrom 5 0 0 _ ?_
  rw [List.length_reverse, List.length_take, Nat.min_eq_left hp]
  omega

/-- **One entry**: the function stays inside the buffer, and what it accepts lies in front of `*pp`. -/
theorem listPackValidateNext_step (lp : List UInt8) (p : ℕ) :
    ∃ r, listPackValidateNext lp (some p) lp.length = some r ∧
      (r = .accepted none → lp[p]? = some lpEof) ∧
      ∀ q, r = .accepted (some q) → p < q ∧ q < lp.length := by
  rw [listPackValidateNext]
  cases hrange : lpOutOfRange lp.length p with
  | true => exact ⟨.rejected, rfl, by simp, by simp⟩
  | false =>
    obtain ⟨hlow, hhigh⟩ := lpOutOfRange_eq_false.mp hrange
    rw [lpHdrSize] at hlow
    rw [if_neg Bool.false_ne_true]
    rcases Nat.lt_or_ge p lp.length with hp | hp
    · have hdrop := List.drop_eq_getElem_cons hp
      rw [List.getElem?_eq_getElem hp, Option.bind_some, hdrop]
      generalize lp[p] = b
      dsimp only
      split_ifs with heof hzero hlen
      · exact ⟨.accepted none, rfl, fun _ ↦ by rw [heof], by simp⟩
      · exact ⟨.rejected, rfl, by simp, by simp⟩
      · exact ⟨.rejected, rfl, by simp, by simp⟩
      · obtain ⟨-, hbytes⟩ := lpOutOfRange_eq_false.mp (Bool.not_eq_true _ ▸ hlen)
        obtain ⟨size, hsize⟩ := exists_listPackCurrentEncodeSizeUnsafe b
          (show listPackCurrentEncodeSizeBytes b ≤ (lp.drop (p + 1)).length by
            rw [List.length_drop]
            omega)
        rw [hsize, Option.bind_some]
        split_ifs with hout
        · exact ⟨.rejected, rfl, by simp, by simp⟩
        · obtain ⟨-, hend⟩ := lpOutOfRange_eq_false.mp (Bool.not_eq_true _ ▸ hout)
          have hpos := listPackEncodeBacklenBytes_pos size
          obtain ⟨l, hl⟩ := exists_listPackDecodeBacklen lp
            (p := p + (size + listPackEncodeBacklenBytes size) - 1) (by omega) (by omega)
          rw [hl, Option.map_some]
          split_ifs
          · exact ⟨.rejected, rfl, by simp, by simp⟩
          · refine ⟨_, rfl, by simp, fun q hq ↦ ?_⟩
            rw [← Option.some.inj (LpValidation.accepted.inj hq)]
            omega
    · exact absurd hhigh (by omega)

/-! ## All of them -/

/-- From an offset on there are at most as many steps as bytes. -/
theorem lpValidateFrom_ends (lp : List UInt8) : ∀ (steps p : ℕ), lp.length ≤ p + steps → 0 < steps →
    ∃ r q, lpValidateFrom lp steps p = some (r, q) ∧
      (r = .rejected ∨ r = .accepted none ∧ lp[q]? = some lpEof) := by
  intro steps
  induction steps with
  | zero => exact fun p _ hpos ↦ absurd hpos (lt_irrefl 0)
  | succ steps ih =>
    intro p hlen _
    obtain ⟨r, hr, heof, hnext⟩ := listPackValidateNext_step lp p
    rw [lpValidateFrom, hr, Option.bind_some]
    cases r with
    | rejected => exact ⟨.rejected, p, rfl, .inl rfl⟩
    | accepted pp =>
      cases pp with
      | none => exact ⟨.accepted none, p, rfl, .inr ⟨rfl, heof rfl⟩⟩
      | some q =>
        obtain ⟨hlt, hq⟩ := hnext q rfl
        exact ih q (by omega) (by omega)

/-- **Validation is safe** on every buffer and at every pointer: no byte outside the buffer is read, an entry
that is accepted is passed forwards and inside the buffer, and repeated from the first entry on the validation
is over after at most as many steps as there are bytes, with a rejection or at an `LP_EOF`. -/
theorem listPackValidateNext_safe (lp : List UInt8) (hlen : 7 ≤ lp.length) :
    (∀ pp : Option ℤ, ∃ r, listPackValidatePointer lp pp lp.length = some r ∧
      ∀ q, r = .accepted (some q) → ∃ p, pp = some p ∧ p < q ∧ q < lp.length) ∧
    ∃ r q, lpValidateFrom lp lp.length 6 = some (r, q) ∧
      (r = .rejected ∨ r = .accepted none ∧ lp[q]? = some lpEof) := by
  refine ⟨fun pp ↦ ?_, lpValidateFrom_ends lp lp.length 6 (Nat.le_add_left _ _) (by omega)⟩
  cases pp with
  | none => exact ⟨.rejected, rfl, by simp⟩
  | some p =>
    rw [listPackValidatePointer]
    split_ifs with hneg
    · exact ⟨.rejected, rfl, by simp⟩
    · obtain ⟨r, hr, -, hnext⟩ := listPackValidateNext_step lp p.toNat
      refine ⟨r, hr, fun q hq ↦ ⟨p, rfl, ?_, (hnext q hq).2⟩⟩
      have := (hnext q hq).1
      omega

/-- A string of seven bytes whose length makes the size of the entry wrap around to one byte. -/
theorem listPackValidateNext_safe_wrap :
    ∃ r q, lpValidateFrom [13, 0, 0, 0, 1, 0, 0xF0, 0xFC, 0xFF, 0xFF, 0xFF, 1, lpEof] 13 6 =
        some (r, q) ∧ (r = .rejected ∨ r = .accepted none ∧
          [13, 0, 0, 0, 1, 0, 0xF0, 0xFC, 0xFF, 0xFF, 0xFF, 1, lpEof][q]? = some lpEof) :=
  (listPackValidateNext_safe [13, 0, 0, 0, 1, 0, 0xF0, 0xFC, 0xFF, 0xFF, 0xFF, 1, lpEof]
    (by decide)).2

end LatteC
