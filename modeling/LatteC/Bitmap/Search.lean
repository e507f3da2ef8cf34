import LatteC.Foundation.Bits
import LatteC.Foundation.NextIndex

/-!
# Bitmaps

`src/bitmap/bitmap.c`: bits in the bytes of a string, and the search for the next one that is set or clear.

A bitmap of `n` bits is a string of `n` bytes, so there are more bits in memory than the bitmap has, and
`bitmap_set` reaches them. The search goes through whole bytes, looks at the bits in front of the start only
in the first of them, and passes over bytes in which all bits are the wrong ones. What it finds in the last
byte may be behind the end, and then there is nothing.

## Modelling

The memory of a bitmap is a vector with a byte more than its size, for the NUL of the string. Indices and
sizes are non-negative, and a size is an `int`, so none of the sums overflows.
-/

namespace LatteC

open NextIndex

/-- `bitmap_t`: the size is the length of the string. -/
structure Bitmap where
  size : ℕ
  map : Vector UInt8 (size + 1)

/-- Whether `bits & (1 << i)` is not `0`. -/
def charBit (bits : UInt8) (i : ℕ) : Bool := bits.toNat &&& 1 <<< i ≠ 0

/-- `bitmap_clear_all`. -/
def bitmapClearAll (b : Bitmap) : Bitmap :=
  ⟨b.size, (List.range b.size).foldl (fun map iter ↦ map.setIfInBounds iter 0) b.map⟩

/-- `bitmap_new`, given the string that `sds_new_len` returns. -/
def bitmapNew (map : Bitmap) : Bitmap := bitmapClearAll map

/-- `bitmap_get`. -/
def bitmapGet (b : Bitmap) (index : ℕ) : Option Bool :=
  b.map[index / 8]?.map fun bits ↦ charBit bits (index % 8)

/-- `bitmap_set`. -/
def bitmapSet (b : Bitmap) (index : ℕ) : Option Bitmap :=
  b.map[index / 8]?.map fun bits ↦
    ⟨b.size, b.map.setIfInBounds (index / 8) (UInt8.ofNat (bits.toNat ||| 1 <<< (index % 8)))⟩

/-- `bitmap_clear`. The complement has eight bits as far as a byte is concerned. -/
def bitmapClear (b : Bitmap) (index : ℕ) : Option Bitmap :=
  b.map[index / 8]?.map fun bits ↦
    ⟨b.size, b.map.setIfInBounds (index / 8) (UInt8.ofNat (bits.toNat &&& (2 ^ 8 - (1 <<< (index % 8) + 1))))⟩

/-- `bytes`. -/
def bytes (size : ℕ) : ℕ := if size % 8 = 0 then size / 8 else size / 8 + 1

/-- `find_char_first_zero` and `find_char_first_setted`, from `i` on. -/
def findCharFirst (want : Bool) (byte : UInt8) (i : ℕ) : ℤ :=
  if i < 8 then
    if charBit byte i = want then i else findCharFirst want byte (i + 1)
  else -1
termination_by 8 - i

/-- The loop of both searches: `ret`. -/
def bitmapNextLoop (b : Bitmap) (want : Bool) (skip : UInt8) (iter startInByte last : ℕ) : Option ℤ :=
  if iter < last then do
    let byte ← b.map[iter]?
    let indexInByte := findCharFirst want byte startInByte
    if byte ≠ skip ∧ 0 ≤ indexInByte then some (iter * 8 + indexInByte)
    else bitmapNextLoop b want skip (iter + 1) 0 last
  else some (-1)
termination_by last - iter

/-- Both searches. -/
def bitmapNext (want : Bool) (skip : UInt8) (b : Bitmap) (start : ℕ) : Option ℤ := do
  let ret ← bitmapNextLoop b want skip (start / 8) (start % 8) (bytes b.size)
  if b.size ≤ ret then some (-1) else some ret

/-- `bitmap_next_unsetted`. -/
def bitmapNextUnsetted : Bitmap → ℕ → Option ℤ := bitmapNext false 255

/-- `bitmap_next_setted`. -/
def bitmapNextSetted : Bitmap → ℕ → Option ℤ := bitmapNext true 0

/-! ## Iterators -/

/-- `bitmap_iterator_data_t`. -/
structure BitmapIteratorData where
  bitmap : Bitmap
  start : ℤ
  next : ℤ

/-- `bitmap_iterator_data_new`. -/
def bitmapIteratorDataNew (map : Bitmap) (start : ℕ) : BitmapIteratorData := ⟨map, start - 1, -2⟩

/-- `setted_iterator_has_next` and `unsetted_iterator_has_next`, each with its own search. -/
def bitmapIteratorHasNext (find : Bitmap → ℕ → Option ℤ) (data : BitmapIteratorData) :
    Option (BitmapIteratorData × Bool) :=
  (find data.bitmap (data.start + 1).toNat).map fun next ↦ ({ data with next := next }, decide (next ≠ -1))

/-- `bitmap_iterator_next`. The index is returned as a pointer, and no index is `NULL`. -/
def bitmapIteratorNext (data : BitmapIteratorData) : BitmapIteratorData × ℤ :=
  if data.next = -1 then (data, 0) else ({ data with start := data.next }, data.next)

/-- What a client gets that calls `next` as long as `has_next` says so. -/
def bitmapIteratorRun (find : Bitmap → ℕ → Option ℤ) : (fuel : ℕ) → BitmapIteratorData → Option (List ℤ)
  | 0, _ => none
  | fuel + 1, data => do
    let (data, hasNext) ← bitmapIteratorHasNext find data
    if hasNext then
      let (data, index) := bitmapIteratorNext data
      (bitmapIteratorRun find fuel data).map (index :: ·)
    else some []

/-! ## Bits -/

theorem charBit_eq (bits : UInt8) (i : ℕ) : charBit bits i = bits.toNat.testBit i := by
  rw [charBit, Nat.shiftLeft_eq, Nat.one_mul, Nat.and_two_pow]
  cases bits.toNat.testBit i with
  | false => simp
  | true => simp

theorem charBit_or (bits : UInt8) {k : ℕ} (hk : k < 8) (i : ℕ) :
    charBit (UInt8.ofNat (bits.toNat ||| 1 <<< k)) i = (charBit bits i || decide (k = i)) := by
  have hlt : bits.toNat ||| 2 ^ k < 2 ^ 8 :=
    Nat.or_lt_two_pow bits.toNat_lt (Nat.pow_lt_pow_right (by decide) hk)
  rw [charBit_eq, charBit_eq, UInt8.toNat_ofNat', Nat.shiftLeft_eq, Nat.one_mul, Nat.mod_eq_of_lt hlt,
    Nat.testBit_or, Nat.testBit_two_pow]

theorem charBit_and (bits : UInt8) {k : ℕ} (hk : k < 8) (i : ℕ) :
    charBit (UInt8.ofNat (bits.toNat &&& (2 ^ 8 - (1 <<< k + 1)))) i = (charBit bits i && !decide (k = i)) := by
  have hpow : 2 ^ k < 2 ^ 8 := Nat.pow_lt_pow_right (by decide) hk
  have hlt : bits.toNat &&& (2 ^ 8 - (2 ^ k + 1)) < 2 ^ 8 := lt_of_le_of_lt Nat.and_le_left bits.toNat_lt
  rw [charBit_eq, charBit_eq, UInt8.toNat_ofNat', Nat.shiftLeft_eq, Nat.one_mul, Nat.mod_eq_of_lt hlt,
    Nat.testBit_and, Nat.testBit_two_pow_sub_succ hpow, Nat.testBit_two_pow]
  by_cases hi : i < 8
  · rw [decide_eq_true hi, Bool.true_and]
  · have hhigh : bits.toNat.testBit i = false :=
      Nat.testBit_lt_two_pow (bits.toNat_lt.trans_le (Nat.pow_le_pow_right (by decide) (not_lt.mp hi)))
    rw [hhigh, Bool.false_and, Bool.false_and]

/-- A bit of a bitmap. What is not in memory is clear. -/
def Bitmap.bit (b : Bitmap) (i : ℕ) : Bool := (bitmapGet b i).getD false

theorem bitmapGet_eq {b : Bitmap} {i : ℕ} (h : i / 8 ≤ b.size) : bitmapGet b i = some (b.bit i) := by
  rw [Bitmap.bit, bitmapGet, Vector.getElem?_eq_getElem (by omega)]
  rfl

/-- The bits of one byte. -/
theorem bit_eq_charBit {b : Bitmap} {iter : ℕ} {byte : UInt8} (h : b.map[iter]? = some byte) {j : ℕ}
    (hj : j < 8) : b.bit (iter * 8 + j) = charBit byte j := by
  have hdiv : (iter * 8 + j) / 8 = iter := by omega
  have hmod : (iter * 8 + j) % 8 = j := by omega
  rw [Bitmap.bit, bitmapGet, hdiv, hmod, h]
  rfl

/-! ## The search in a byte -/

theorem findCharFirst_eq (want : Bool) (byte : UInt8) (i : ℕ) :
    findCharFirst want byte i = signed (next (fun j ↦ charBit byte j == want) i 8) := by
  induction hk : 8 - i generalizing i with
  | zero =>
    rw [findCharFirst, if_neg (by omega)]
    have hnone : next (fun j ↦ charBit byte j == want) i 8 = none :=
      next_eq_none_iff.mpr fun j hj hlt ↦ absurd hlt (by omega)
    rw [hnone]
    rfl
  | succ k ih =>
    have hi : i < 8 := by omega
    have hsplit := next_split (p := fun j ↦ charBit byte j == want) (Nat.le_succ i) hi
    rw [findCharFirst, if_pos hi, hsplit]
    by_cases hbit : charBit byte i = want
    · have hsome : next (fun j ↦ charBit byte j == want) i (i + 1) = some i :=
        next_eq_some_iff.mpr ⟨beq_iff_eq.mpr hbit, ⟨le_refl i, Nat.lt_succ_self i⟩,
          fun j hj hlt ↦ absurd hlt (by omega)⟩
      rw [if_pos hbit, hsome]
      rfl
    · have hnone : next (fun j ↦ charBit byte j == want) i (i + 1) = none := by
        refine next_eq_none_iff.mpr fun j hj hlt ↦ ?_
        obtain rfl : j = i := by omega
        exact beq_eq_false_iff_ne.mpr hbit
      rw [if_neg hbit, hnone, Option.none_or]
      exact ih (i + 1) (by omega)

/-! ## The search in all bytes -/

/-- All bits of the byte that is passed over are the wrong ones. -/
def Skips (want : Bool) (skip : UInt8) : Prop := ∀ j < 8, charBit skip j = !want

theorem skips_unsetted : Skips false 255 := by
  rw [Skips]
  decide

theorem skips_setted : Skips true 0 := by
  rw [Skips]
  decide

section Search

variable {b : Bitmap} {want : Bool} {skip : UInt8}

/-- One byte. -/
theorem next_byte {iter : ℕ} {byte : UInt8} (hbyte : b.map[iter]? = some byte) (startInByte : ℕ) :
    next (fun i ↦ b.bit i == want) (iter * 8 + startInByte) (iter * 8 + 8) =
      (next (fun j ↦ charBit byte j == want) startInByte 8).map (iter * 8 + ·) := by
  rw [next_add]
  exact congrArg _ (next_congr fun j _ hj ↦ by rw [bit_eq_charBit hbyte hj])

/-- **The loop** finds the next bit in the bytes that are left. -/
theorem bitmapNextLoop_eq (hskip : Skips want skip) {iter startInByte last : ℕ} (hlast : last ≤ b.size + 1)
    (hstart : startInByte < 8) :
    bitmapNextLoop b want skip iter startInByte last =
      some (signed (next (fun i ↦ b.bit i == want) (iter * 8 + startInByte) (last * 8))) := by
  induction hk : last - iter generalizing iter startInByte with
  | zero =>
    have hnone : next (fun i ↦ b.bit i == want) (iter * 8 + startInByte) (last * 8) = none :=
      next_eq_none_iff.mpr fun j hj hlt ↦ absurd hlt (by omega)
    rw [bitmapNextLoop, if_neg (by omega), hnone]
    rfl
  | succ k ih =>
    have hiter : iter < b.size + 1 := by omega
    have hbyte : b.map[iter]? = some b.map[iter] := Vector.getElem?_eq_getElem hiter
    have hrest := @ih (iter + 1) 0 (by decide) (by omega)
    have hsplit := next_split (p := fun i ↦ b.bit i == want) (show iter * 8 + startInByte ≤ iter * 8 + 8 by omega)
      (show iter * 8 + 8 ≤ last * 8 by omega)
    rw [Nat.add_zero, Nat.add_mul, Nat.one_mul] at hrest
    rw [bitmapNextLoop, if_pos (by omega), hbyte, hsplit, next_byte hbyte]
    simp only [bind, Option.bind_some, findCharFirst_eq]
    cases hnext : next (fun j ↦ charBit b.map[iter] j == want) startInByte 8 with
    | none =>
      have hneg : ¬(b.map[iter] ≠ skip ∧ (0 : ℤ) ≤ signed none) := fun h ↦ absurd h.2 (by decide)
      rw [if_neg hneg, Option.map_none, Option.none_or]
      exact hrest
    | some j =>
      -- the byte has a bit that is wanted, so it is not passed over
      obtain ⟨hj, hbounds, -⟩ := next_eq_some_iff.mp hnext
      have hne : b.map[iter] ≠ skip := by
        intro heq
        rw [heq, hskip j hbounds.2] at hj
        cases want <;> exact absurd hj (by decide)
      rw [if_pos ⟨hne, Int.natCast_nonneg j⟩]
      rfl

/-- **The search** finds the next bit of the bitmap. -/
theorem bitmapNext_eq (hskip : Skips want skip) (b : Bitmap) (start : ℕ) :
    bitmapNext want skip b start = some (signed (next (fun i ↦ b.bit i == want) start b.size)) := by
  have hbytes : bytes b.size ≤ b.size + 1 ∧ b.size ≤ bytes b.size * 8 := by
    rw [bytes]
    split_ifs <;> omega
  have hstart : start / 8 * 8 + start % 8 = start := by omega
  have hloop := @bitmapNextLoop_eq b want skip hskip (start / 8) (start % 8) (bytes b.size) hbytes.1
    (Nat.mod_lt start (by decide))
  rw [hstart] at hloop
  rw [bitmapNext, hloop, next_of_le hbytes.2]
  simp only [bind, Option.bind_some]
  cases next (fun i ↦ b.bit i == want) start (bytes b.size * 8) with
  | none =>
    have hneg : ¬(b.size : ℤ) ≤ signed none := fun h ↦ by
      have hle : (b.size : ℤ) ≤ -1 := h
      omega
    rw [if_neg hneg]
    rfl
  | some i =>
    have hsigned : signed (some i) = (i : ℤ) := rfl
    rw [Option.filter_some, hsigned]
    by_cases hlt : i < b.size
    · rw [if_neg (by omega), if_pos (decide_eq_true hlt)]
      rfl
    · rw [if_pos (by omega), if_neg (by rwa [decide_eq_true_iff])]
      rfl

/-- **An iterator** returns all of them, in order. -/
theorem bitmapIteratorRun_eq {find : Bitmap → ℕ → Option ℤ} {p : ℕ → Bool}
    (hfind : ∀ start, find b start = some (signed (next p start b.size))) {fuel start : ℕ}
    (hfuel : b.size - start < fuel) (last : ℤ) :
    bitmapIteratorRun find fuel ⟨b, start - 1, last⟩ = some ((all p start b.size).map Nat.cast) := by
  induction fuel generalizing start last with
  | zero => exact absurd hfuel (Nat.not_lt_zero _)
  | succ fuel ih =>
    have hfrom : ((start : ℤ) - 1 + 1).toNat = start := by omega
    rw [bitmapIteratorRun, bitmapIteratorHasNext]
    simp only [hfrom, hfind, Option.map_some, bind, Option.bind_some]
    cases hnext : next p start b.size with
    | none =>
      have hlast : decide (signed none ≠ -1) = false := rfl
      rw [hlast, if_neg Bool.false_ne_true, all_of_next_none hnext]
      rfl
    | some i =>
      obtain ⟨-, hbounds, -⟩ := next_eq_some_iff.mp hnext
      have hsigned : signed (some i) = (i : ℤ) := rfl
      have hne : (i : ℤ) ≠ -1 := by omega
      have hdata : bitmapIteratorNext ⟨b, start - 1, i⟩ = (⟨b, ((i + 1 : ℕ) : ℤ) - 1, i⟩, (i : ℤ)) := by
        rw [bitmapIteratorNext, if_neg hne]
        simp
      rw [hsigned, if_pos (decide_eq_true hne), hdata]
      have hrest := @ih (i + 1) (by omega) i
      simp only [hrest, Option.map_some, all_of_next_some hnext, List.map_cons]

end Search

/-! ## Any stores -/

/-- A call of `bitmap_set` or `bitmap_clear`. -/
inductive BitmapCall where
  | set (index : ℕ)
  | clear (index : ℕ)

/-- The bitmap after a call. -/
def BitmapCall.apply (b : Bitmap) : BitmapCall → Option Bitmap
  | .set index => bitmapSet b index
  | .clear index => bitmapClear b index

/-- The bits after a call. -/
def BitmapCall.bits (bits : ℕ → Bool) : BitmapCall → ℕ → Bool
  | .set index => Function.update bits index true
  | .clear index => Function.update bits index false

/-- The bitmap after calls that all stay in its memory. -/
def bitmapRun (b : Bitmap) : (calls : List BitmapCall) → Option Bitmap
  | [] => some b
  | call :: calls => (call.apply b).bind fun b ↦ bitmapRun b calls

/-- A byte is stored. -/
theorem bit_setIfInBounds {b : Bitmap} {index : ℕ} {bits bits' : UInt8} (hbits : b.map[index / 8]? = some bits)
    {value : Bool} (hvalue : ∀ i, charBit bits' i = if index % 8 = i then value else charBit bits i) :
    Bitmap.bit ⟨b.size, b.map.setIfInBounds (index / 8) bits'⟩ = Function.update b.bit index value := by
  have hlt : index / 8 < b.size + 1 := (Vector.getElem?_eq_some_iff.mp hbits).1
  funext i
  rw [Bitmap.bit, bitmapGet, Function.update_apply]
  by_cases hdiv : index / 8 = i / 8
  · rw [← hdiv, Vector.getElem?_setIfInBounds_self_of_lt hlt, Option.map_some, Option.getD_some, hvalue]
    by_cases hmod : index % 8 = i % 8
    · rw [if_pos hmod, if_pos (by omega)]
    · rw [if_neg hmod, if_neg (by omega), Bitmap.bit, bitmapGet, ← hdiv, hbits]
      rfl
  · rw [Vector.getElem?_setIfInBounds_ne hdiv, if_neg (by omega)]
    rfl

/-- **One call** changes one bit. -/
theorem bit_apply {b b' : Bitmap} {call : BitmapCall} (h : call.apply b = some b') :
    b'.size = b.size ∧ b'.bit = call.bits b.bit := by
  cases call with
  | set index =>
    obtain ⟨bits, hbits, rfl⟩ := Option.map_eq_some_iff.mp h
    refine ⟨rfl, bit_setIfInBounds hbits fun i ↦ ?_⟩
    rw [charBit_or bits (Nat.mod_lt index (by decide))]
    by_cases hi : index % 8 = i
    · rw [if_pos hi, decide_eq_true hi, Bool.or_true]
    · rw [if_neg hi, decide_eq_false hi, Bool.or_false]
  | clear index =>
    obtain ⟨bits, hbits, rfl⟩ := Option.map_eq_some_iff.mp h
    refine ⟨rfl, bit_setIfInBounds hbits fun i ↦ ?_⟩
    rw [charBit_and bits (Nat.mod_lt index (by decide))]
    by_cases hi : index % 8 = i
    · rw [if_pos hi, decide_eq_true hi, Bool.not_true, Bool.and_false]
    · rw [if_neg hi, decide_eq_false hi, Bool.not_false, Bool.and_true]

/-- **Any calls.** A bit is what the last call for it made of it. -/
theorem bit_bitmapRun {b b' : Bitmap} {calls : List BitmapCall} (h : bitmapRun b calls = some b') :
    b'.size = b.size ∧ b'.bit = calls.foldl BitmapCall.bits b.bit := by
  induction calls generalizing b with
  | nil =>
    cases h
    exact ⟨rfl, rfl⟩
  | cons call calls ih =>
    obtain ⟨b₁, hcall, hcalls⟩ := Option.bind_eq_some_iff.mp h
    obtain ⟨hsize, hbit⟩ := bit_apply hcall
    obtain ⟨hsize', hbit'⟩ := ih hcalls
    rw [List.foldl_cons, ← hbit]
    exact ⟨hsize'.trans hsize, hbit'⟩

/-- At first all bits of a bitmap are clear. -/
theorem bit_bitmapNew (map : Bitmap) {i : ℕ} (hi : i < map.size) : (bitmapNew map).bit i = false := by
  have hclear : ∀ (n : ℕ) (v : Vector UInt8 (map.size + 1)), ∀ j < n, j < map.size + 1 →
      ((List.range n).foldl (fun map iter ↦ map.setIfInBounds iter 0) v)[j]? = some 0 := by
    intro n v j hj hlt
    induction n with
    | zero => exact absurd hj (Nat.not_lt_zero j)
    | succ n ih =>
      rw [List.range_succ, List.foldl_append, List.foldl_cons, List.foldl_nil]
      by_cases heq : n = j
      · rw [heq, Vector.getElem?_setIfInBounds_self_of_lt hlt]
      · rw [Vector.getElem?_setIfInBounds_ne heq, ih (by omega)]
  rw [Bitmap.bit, bitmapGet, bitmapNew, bitmapClearAll]
  simp only [hclear map.size map.map (i / 8) (by omega) (by omega), Option.map_some, Option.getD_some]
  rw [charBit_eq]
  exact Nat.zero_testBit _

/-! ## What the searches are for -/

/-- The least index in a range that has the property, or `-1`. -/
def IsNextIndex (p : ℕ → Prop) (start n : ℕ) (r : Option ℤ) : Prop :=
  (∃ i : ℕ, r = some (i : ℤ) ∧ start ≤ i ∧ i < n ∧ p i ∧ ∀ j, start ≤ j → j < i → ¬p j) ∨
    r = some (-1) ∧ ∀ j, start ≤ j → j < n → ¬p j

theorem isNextIndex_signed (bits : ℕ → Bool) (want : Bool) (start n : ℕ) :
    IsNextIndex (fun i ↦ bits i = want) start n (some (signed (next (fun i ↦ bits i == want) start n))) := by
  cases hnext : next (fun i ↦ bits i == want) start n with
  | none =>
    rw [next_eq_none_iff] at hnext
    exact Or.inr ⟨rfl, fun j hj hlt ↦ beq_eq_false_iff_ne.mp (hnext j hj hlt)⟩
  | some i =>
    obtain ⟨hi, hbounds, hleast⟩ := next_eq_some_iff.mp hnext
    exact Or.inl ⟨i, rfl, hbounds.1, hbounds.2, beq_iff_eq.mp hi,
      fun j hj hlt ↦ beq_eq_false_iff_ne.mp (hleast j hj hlt)⟩

/-- The bits that calls leave, if all are clear at first. -/
def storedBits (calls : List BitmapCall) : ℕ → Bool := calls.foldl BitmapCall.bits fun _ ↦ false

/-- A call treats each bit by itself. -/
theorem foldl_bits_congr (calls : List BitmapCall) {bits bits' : ℕ → Bool} {i : ℕ} (h : bits i = bits' i) :
    calls.foldl BitmapCall.bits bits i = calls.foldl BitmapCall.bits bits' i := by
  induction calls generalizing bits bits' with
  | nil => exact h
  | cons call calls ih =>
    refine ih ?_
    cases call with
    | set index | clear index =>
      rw [BitmapCall.bits, BitmapCall.bits, Function.update_apply, Function.update_apply, h]

section Stored

variable {map b : Bitmap} {calls : List BitmapCall}

theorem bit_eq_storedBits (h : bitmapRun (bitmapNew map) calls = some b) {i : ℕ} (hi : i < b.size) :
    b.bit i = storedBits calls i := by
  obtain ⟨hsize, hbit⟩ := bit_bitmapRun h
  rw [hbit, storedBits]
  rw [hsize] at hi
  exact foldl_bits_congr calls (bit_bitmapNew map hi)

/-- Both searches, on the bits that the calls leave. -/
theorem bitmapNext_eq_storedBits (h : bitmapRun (bitmapNew map) calls = some b) {want : Bool} {skip : UInt8}
    (hskip : Skips want skip) (start : ℕ) :
    bitmapNext want skip b start = some (signed (next (fun i ↦ storedBits calls i == want) start b.size)) := by
  rw [bitmapNext_eq hskip]
  exact congrArg (fun r ↦ some (signed r)) (next_congr fun j _ hj ↦ by rw [bit_eq_storedBits h hj])

/-- **Searching.** After any calls that stay in the memory of a bitmap, a search returns the least index from
the start on of a bit that is set, or clear, or `-1`; and the two iterators go through all indices from the
start on, each index in one of them, in order. -/
theorem bitmapNext_bitmapRun (h : bitmapRun (bitmapNew map) calls = some b) (start : ℕ) :
    b.size = map.size ∧ (∀ i < b.size, bitmapGet b i = some (storedBits calls i)) ∧
      IsNextIndex (fun i ↦ storedBits calls i = true) start b.size (bitmapNextSetted b start) ∧
      IsNextIndex (fun i ↦ storedBits calls i = false) start b.size (bitmapNextUnsetted b start) ∧
      ∀ fuel, b.size < fuel → ∃ S U : List ℕ,
        bitmapIteratorRun bitmapNextSetted fuel (bitmapIteratorDataNew b start) = some (S.map Nat.cast) ∧
        bitmapIteratorRun bitmapNextUnsetted fuel (bitmapIteratorDataNew b start) = some (U.map Nat.cast) ∧
        S.Pairwise (· < ·) ∧ U.Pairwise (· < ·) ∧ S.Disjoint U ∧
        (∀ i, i ∈ S ∨ i ∈ U ↔ start ≤ i ∧ i < b.size) ∧
        (∀ i ∈ S, storedBits calls i = true) ∧ ∀ i ∈ U, storedBits calls i = false := by
  have hset := bitmapNext_eq_storedBits h skips_setted
  have hclear := bitmapNext_eq_storedBits h skips_unsetted
  refine ⟨(bit_bitmapRun h).1, fun i hi ↦ ?_, ?_, ?_, fun fuel hfuel ↦ ?_⟩
  · rw [bitmapGet_eq (by omega), bit_eq_storedBits h hi]
  · rw [bitmapNextSetted, hset]
    exact isNextIndex_signed _ true start b.size
  · rw [bitmapNextUnsetted, hclear]
    exact isNextIndex_signed _ false start b.size
  · refine ⟨_, _, bitmapIteratorRun_eq hset (by omega) (-2), bitmapIteratorRun_eq hclear (by omega) (-2),
      pairwise_all _ _ _, pairwise_all _ _ _, ?_, fun i ↦ ?_, fun i hi ↦ ?_, fun i hi ↦ ?_⟩
    · intro i hi hi'
      have hbit := beq_iff_eq.mp (mem_all_iff.mp hi).2
      rw [beq_iff_eq.mp (mem_all_iff.mp hi').2] at hbit
      exact Bool.false_ne_true hbit
    · rw [mem_all_iff, mem_all_iff, ← and_or_left, beq_iff_eq, beq_iff_eq]
      exact and_iff_left (Bool.eq_false_or_eq_true _)
    · exact beq_iff_eq.mp (mem_all_iff.mp hi).2
    · exact beq_iff_eq.mp (mem_all_iff.mp hi).2

end Stored

/-- Ten bits, one of them set and two bits behind the end. -/
theorem bitmapNext_bitmapRun_ten :
    ∃ b, bitmapRun (bitmapNew ⟨10, Vector.replicate 11 0⟩) [.set 3, .set 12, .set 4, .clear 4] = some b ∧
      IsNextIndex (fun i ↦ storedBits [.set 3, .set 12, .set 4, .clear 4] i = true) 4 b.size
        (bitmapNextSetted b 4) := by
  obtain ⟨b, hb⟩ : ∃ b, bitmapRun (bitmapNew ⟨10, Vector.replicate 11 0⟩)
      [.set 3, .set 12, .set 4, .clear 4] = some b := ⟨_, rfl⟩
  exact ⟨b, hb, (bitmapNext_bitmapRun hb 4).2.2.1⟩

end LatteC
