import LatteC.Sds.VarStream

/-!
# Strings with their lengths in front

`sds_append_length_prefixed_slice` and `get_length_prefixed_slice` of `src/sds/sds_plugins.c`. The length is a
varint of 32 bits. The reader compares it as an `int`, so that a length from 2³¹ on passes for a negative one.
-/

namespace LatteC

open Base128 Bits

/-- `sds_append_length_prefixed_slice`. -/
def sdsAppendLengthPrefixedSlice (mem dst : List UInt8) (slice : SlicePtr) : Option (List UInt8) :=
  (sdsAppendVarInt32 dst slice.len.toUInt32).bind fun dst ↦
    (Block.read mem slice.p (slice.len.toInt % 2 ^ 64).toNat).bind (sdsCatLen dst)

/-- `slice_remove_prefix`. -/
def sliceRemovePrefix (slice : SlicePtr) (len : ℕ) : SlicePtr :=
  ⟨slice.p + len, .ofInt (slice.len.toInt - len)⟩

/-- `get_length_prefixed_slice`: the value returned, `input` and `result`. -/
def getLengthPrefixedSlice (mem : List UInt8) (input result : SlicePtr) :
    Option (Bool × SlicePtr × SlicePtr) :=
  (getVarInt32 mem input 0).map fun r ↦
    let input := r.2.1
    let len := r.2.2
    if r.1 ∧ (Int32.ofNat len).toInt ≤ input.len.toInt then
      (true, sliceRemovePrefix input len, ⟨input.p, .ofNat len⟩)
    else (false, input, result)

/-! ## Any input -/

/-- The block has all bytes of the slice. -/
def SlicePtr.Within (mem : List UInt8) (slice : SlicePtr) : Prop :=
  slice.p + slice.len.toInt ≤ mem.length

/-- The bytes of a slice. -/
def SlicePtr.bytes (mem : List UInt8) (slice : SlicePtr) : List UInt8 :=
  (mem.drop slice.p).take slice.len.toInt.toNat

/-- What is accepted lies inside of the input behind its length, and the input goes on just behind it. -/
def AcceptsInside (mem : List UInt8) (input result : SlicePtr) : Prop :=
  ∃ ret next r, getLengthPrefixedSlice mem input result = some (ret, next, r) ∧ (ret = true →
    ∃ n : ℕ, 0 < n ∧ r.p = input.p + n ∧ 0 ≤ r.len.toInt ∧
      r.p + r.len.toInt ≤ input.p + input.len.toInt ∧ (next.p : ℤ) = r.p + r.len.toInt ∧
        next.p + next.len.toInt = input.p + input.len.toInt)

/-- The bytes start with a number of exactly so many bytes, and bit 31 of it is set if there are five. -/
def StartsHuge : (rounds : ℕ) → List UInt8 → Prop
  | 1, b :: _ => ¬Continues b ∧ 8 ≤ b.toNat % 16
  | rounds + 2, b :: bs => Continues b ∧ StartsHuge (rounds + 1) bs
  | _, _ => False

/-- Seven more bits. -/
theorem or_shift_lt {result x i : ℕ} (hresult : result < 2 ^ (7 * i)) (hx : x < 2 ^ 7) (hi : i ≤ 3) :
    result ||| x <<< (7 * i) % 2 ^ 32 < 2 ^ (7 * (i + 1)) := by
  have hpow : 2 ^ (7 * (i + 1)) = 2 ^ (7 * i) * 2 ^ 7 := pow_add 2 (7 * i) 7
  rw [shiftLeft_mod hx (by omega), or_shiftLeft hresult, hpow, Nat.mul_comm (2 ^ (7 * i))]
  calc result + x * 2 ^ (7 * i) < 2 ^ (7 * i) + x * 2 ^ (7 * i) := Nat.add_lt_add_right hresult _
    _ = (x + 1) * 2 ^ (7 * i) := by rw [Nat.add_mul, Nat.one_mul, Nat.add_comm]
    _ ≤ 2 ^ 7 * 2 ^ (7 * i) := Nat.mul_le_mul_right _ hx

/-- The fifth byte: four of its bits are bits of the number. -/
theorem or_shift_last {result x : ℕ} (hresult : result < 2 ^ 28) :
    result ||| x <<< 28 % 2 ^ 32 = result + x % 16 * 2 ^ 28 := by
  have hshift : x <<< 28 % 2 ^ 32 = (x % 16) <<< 28 := by
    rw [Nat.shiftLeft_eq, Nat.shiftLeft_eq]
    omega
  rw [hshift, or_shiftLeft hresult]

/-- **What the loop makes of any bytes.** After `i` rounds it has `7 * i` bits of a number. -/
theorem getVarIntLoop_bytes {mem bs rest : List UInt8} {p i rounds result : ℕ} {limit : ℤ}
    (hi : i + rounds = 4) (hresult : result < 2 ^ (7 * i)) (hmem : mem.drop p = bs ++ rest)
    (hlimit : limit = p + bs.length) :
    (getVarIntLoop 32 28 mem limit (rounds + 1) (7 * i) p result = some none ∧
      ¬StartsHuge (rounds + 1) bs) ∨
    ∃ n value, getVarIntLoop 32 28 mem limit (rounds + 1) (7 * i) p result = some (some (value, p + n)) ∧
      0 < n ∧ n ≤ bs.length ∧ value < 2 ^ 32 ∧ (2 ^ 31 ≤ value ↔ StartsHuge (rounds + 1) bs) := by
  induction rounds generalizing i p result bs with
  | zero =>
    obtain rfl : i = 4 := hi
    cases bs with
    | nil =>
      refine .inl ⟨?_, id⟩
      rw [getVarIntLoop, if_neg]
      rw [List.length_nil] at hlimit
      omega
    | cons b bs =>
      rw [List.length_cons] at hlimit
      by_cases hb : Continues b
      · refine .inl ⟨?_, fun h ↦ h.1 hb⟩
        rw [getVarIntLoop_continues hb (getElem?_of_drop hmem) (by decide) (by omega)]
        rfl
      · have hvalue : result ||| b.toNat <<< 28 % 2 ^ 32 = result + b.toNat % 16 * 2 ^ 28 :=
          or_shift_last hresult
        have hhuge : StartsHuge (0 + 1) (b :: bs) ↔ 8 ≤ b.toNat % 16 := and_iff_right hb
        refine .inr ⟨1, _, getVarIntLoop_ends hb (getElem?_of_drop hmem) (by decide) (by omega),
          Nat.one_pos, Nat.succ_pos _, ?_, ?_⟩
        · rw [hvalue]
          omega
        · rw [hvalue, hhuge]
          omega
  | succ rounds ih =>
    cases bs with
    | nil =>
      refine .inl ⟨?_, id⟩
      rw [getVarIntLoop, if_neg]
      rw [List.length_nil] at hlimit
      omega
    | cons b bs =>
      rw [List.length_cons] at hlimit
      by_cases hb : Continues b
      · have hhuge : StartsHuge (rounds + 1 + 1) (b :: bs) ↔ StartsHuge (rounds + 1) bs :=
          and_iff_right hb
        rw [getVarIntLoop_continues hb (getElem?_of_drop hmem) (by omega) (by omega), hhuge,
          List.length_cons]
        have hbytes := ih (p := p + 1) (by omega) (or_shift_lt hresult (payload_lt b) (by omega))
          (drop_succ_of_drop hmem) (by omega)
        obtain hnone | ⟨n, value, hsome, -, hle, hvalue⟩ := hbytes
        · exact .inl hnone
        · refine .inr ⟨n + 1, value, ?_, Nat.succ_pos n, Nat.succ_le_succ hle, hvalue⟩
          have hend : p + (n + 1) = p + 1 + n := by omega
          rw [hend]
          exact hsome
      · have hb128 : b.toNat < 2 ^ 7 := Nat.lt_of_not_le fun h ↦ hb ((continues_iff b).mpr h)
        have hlt := or_shift_lt (i := i) hresult hb128 (by omega)
        have hpow : 2 ^ (7 * (i + 1)) ≤ 2 ^ 28 := Nat.pow_le_pow_right (by decide) (by omega)
        refine .inr ⟨1, _, getVarIntLoop_ends hb (getElem?_of_drop hmem) (by omega) (by omega),
          Nat.one_pos, Nat.succ_pos _, hlt.trans_le (hpow.trans (by decide)), ?_⟩
        refine iff_of_false (fun h ↦ ?_) fun h ↦ hb h.1
        exact absurd (h.trans_lt (hlt.trans_le hpow)) (by decide)

theorem toInt_ofNat_of_le {value : ℕ} (h : 2 ^ 31 ≤ value) (hlt : value < 2 ^ 32) :
    (Int32.ofNat value).toInt = (value : ℤ) - 2 ^ 32 := by
  have hsize : ((Int32.size : ℕ) : ℤ) = 2 ^ 32 := rfl
  rw [Int32.toInt_ofNat', Int.bmod_def, hsize, Int.emod_eq_of_lt (by omega) (by omega), if_neg (by omega)]

section Within

variable {mem : List UInt8} {input result : SlicePtr}

/-- What `get_var_int32` makes of any slice. -/
theorem getVarInt32_within (h : input.Within mem) (v : ℕ) :
    (getVarInt32 mem input v = some (false, input, v) ∧ ¬StartsHuge 5 (input.bytes mem)) ∨
    ∃ n value next, getVarInt32 mem input v = some (true, next, value) ∧ input.Advanced n next ∧ 0 < n ∧
      0 ≤ next.len.toInt ∧ value < 2 ^ 32 ∧ (2 ^ 31 ≤ value ↔ StartsHuge 5 (input.bytes mem)) := by
  rw [getVarInt32, getVarInt32Ptr_eq, getVarInt32PtrFallback]
  rcases lt_or_ge input.len.toInt 0 with hneg | hpos
  · -- a slice of negative length ends before it starts
    have hbytes : input.bytes mem = [] := by
      rw [SlicePtr.bytes, Int.toNat_of_nonpos hneg.le, List.take_zero]
    rw [hbytes, getVarIntLoop, if_neg fun hcond ↦ by omega]
    exact .inl ⟨rfl, id⟩
  · rw [SlicePtr.Within] at h
    have hdrop : mem.drop input.p = input.bytes mem ++ (mem.drop input.p).drop input.len.toInt.toNat :=
      (List.take_append_drop _ _).symm
    have hlen : ((input.bytes mem).length : ℤ) = input.len.toInt := by
      rw [SlicePtr.bytes, List.length_take, List.length_drop]
      omega
    have hzero : (0 : ℕ) < 2 ^ (7 * 0) := Nat.one_pos
    have hlimit : input.p + input.len.toInt = input.p + (input.bytes mem).length := by rw [hlen]
    obtain ⟨hloop, hhuge⟩ | ⟨n, value, hloop, hn, hle, hlt, hhuge⟩ :=
      getVarIntLoop_bytes (Nat.zero_add 4) hzero hdrop hlimit
    · rw [Nat.mul_zero] at hloop
      rw [hloop]
      exact .inl ⟨rfl, hhuge⟩
    · have hfits : (n : ℤ) ≤ input.len.toInt := by omega
      obtain ⟨next, hadvance, hnext⟩ := @SlicePtr.advance_some input v n value hfits
      have hnextLen := hnext.len
      rw [Nat.mul_zero] at hloop
      rw [hloop]
      exact .inr ⟨n, value, next, congrArg some hadvance, hnext, hn, by omega, hlt, hhuge⟩

/-- **Untrusted input** is read within its bounds if and only if its length is below 2³¹. -/
theorem acceptsInside_iff (h : input.Within mem) :
    AcceptsInside mem input result ↔ ¬StartsHuge 5 (input.bytes mem) := by
  rw [AcceptsInside, getLengthPrefixedSlice]
  obtain ⟨hget, hhuge⟩ | ⟨n, value, next, hget, hnext, hn, hnonneg, hlt, hhuge⟩ :=
    getVarInt32_within h 0
  · rw [hget]
    exact iff_of_true ⟨false, input, result, rfl, fun hret ↦ absurd hret Bool.false_ne_true⟩ hhuge
  · rw [hget, ← hhuge, Option.map_some]
    have hnextP := hnext.p
    have hnextLen := hnext.len
    by_cases hlarge : 2 ^ 31 ≤ value
    · -- the length passes for a negative one
      have hint := toInt_ofNat_of_le hlarge hlt
      have haccept : (true = true ∧ (Int32.ofNat value).toInt ≤ next.len.toInt) := ⟨rfl, by omega⟩
      refine iff_of_false ?_ (not_not_intro hlarge)
      rintro ⟨ret, next', r, heq, hinside⟩
      dsimp only at heq
      rw [if_pos haccept] at heq
      obtain ⟨rfl, hrest⟩ := Prod.mk.inj (Option.some.inj heq)
      obtain ⟨rfl, rfl⟩ := Prod.mk.inj hrest
      obtain ⟨n', -, -, hlen, -⟩ := hinside rfl
      dsimp only at hlen
      omega
    · have hint : (Int32.ofNat value).toInt = value := Int32.toInt_ofNat_of_lt (Nat.not_le.mp hlarge)
      refine iff_of_true ?_ hlarge
      dsimp only
      rw [hint]
      by_cases hfits : (value : ℤ) ≤ next.len.toInt
      · have hmax := next.len.toInt_lt
        have hremoved : (Int32.ofInt (next.len.toInt - value)).toInt = next.len.toInt - value :=
          Int32.toInt_ofInt_of_le (by omega) (by omega)
        rw [if_pos ⟨rfl, hfits⟩]
        refine ⟨true, _, _, rfl, fun _ ↦ ⟨n, hn, hnextP, ?_, ?_, ?_, ?_⟩⟩
        · rw [hint]
          omega
        · rw [hint]
          dsimp only
          omega
        · rw [hint, sliceRemovePrefix]
          push_cast
          rfl
        · rw [sliceRemovePrefix, hremoved]
          push_cast
          omega
      · rw [if_neg fun hcond ↦ hfits hcond.2]
        exact ⟨false, _, _, rfl, fun hret ↦ absurd hret Bool.false_ne_true⟩

end Within

/-! ## Strings that have been written -/

/-- The strings are appended in order. -/
def appendSlices : (dst : List UInt8) → List (List UInt8) → Option (List UInt8)
  | dst, [] => some dst
  | dst, t :: ts =>
    (sdsAppendLengthPrefixedSlice t dst ⟨0, .ofNat t.length⟩).bind fun dst ↦ appendSlices dst ts

/-- The reads return these strings, and then none. -/
def ReadsSlices (mem : List UInt8) : SlicePtr → List (List UInt8) → Prop
  | input, [] => ∀ result, getLengthPrefixedSlice mem input result = some (false, input, result)
  | input, t :: ts => ∀ result, ∃ next r,
      getLengthPrefixedSlice mem input result = some (true, next, r) ∧ r.Holds mem t ∧
        ReadsSlices mem next ts

/-- Appending two pieces is appending both at once. -/
theorem sdsCatLen_append (s t u : List UInt8) :
    ((sdsCatLen s t).bind fun s ↦ sdsCatLen s u) = sdsCatLen s (t ++ u) := by
  rw [sdsCatLen, sdsCatLen, List.length_append]
  split_ifs with hfirst hboth hboth
  · rw [Option.bind_some, sdsCatLen, if_pos (by rw [List.length_append]; omega), List.append_assoc]
  · rw [Option.bind_some, sdsCatLen, if_neg (by rw [List.length_append]; omega)]
  · omega
  · rfl

/-- A string with its length in front. -/
def prefixed (t : List UInt8) : List UInt8 := encode t.length ++ t

theorem sdsAppendLengthPrefixedSlice_eq {t : List UInt8} (ht : t.length < 2 ^ 31) (dst : List UInt8) :
    sdsAppendLengthPrefixedSlice t dst ⟨0, .ofNat t.length⟩ = sdsCatLen dst (prefixed t) := by
  have hint : (Int32.ofNat t.length).toInt = t.length := Int32.toInt_ofNat_of_lt ht
  have huint : (Int32.ofNat t.length).toUInt32.toNat = t.length := by
    have hcast : (Int32.ofNat t.length).toUInt32 = UInt32.ofNat t.length := rfl
    rw [hcast, UInt32.toNat_ofNat']
    omega
  have hsize : ((t.length : ℤ) % 2 ^ 64).toNat = t.length := by omega
  have hread : Block.read t 0 t.length = some t := by
    have := Block.read_append [] t []
    simpa using this
  rw [sdsAppendLengthPrefixedSlice, sdsAppendVarInt32_eq]
  dsimp only
  rw [huint, hint, hsize, hread, prefixed, ← sdsCatLen_append]
  rfl

/-- What is written is the strings with their lengths in front, if that is no longer than a string can be. -/
theorem appendSlices_eq {ts : List (List UInt8)} (hts : ∀ t ∈ ts, t.length < 2 ^ 31) {dst : List UInt8}
    (hdst : dst.length < 2 ^ 63) : appendSlices dst ts = sdsCatLen dst (ts.flatMap prefixed) := by
  induction ts generalizing dst with
  | nil =>
    have hfits : dst.length + ([] : List UInt8).length < 2 ^ 63 := hdst
    rw [appendSlices, List.flatMap_nil, sdsCatLen, if_pos hfits, List.append_nil]
  | cons t ts ih =>
    rw [List.forall_mem_cons] at hts
    rw [appendSlices, sdsAppendLengthPrefixedSlice_eq hts.1, List.flatMap_cons, ← sdsCatLen_append]
    refine Option.bind_congr fun mid hmid ↦ ih hts.2 ?_
    rw [sdsCatLen] at hmid
    split_ifs at hmid with hfits
    rw [← Option.some.inj hmid, List.length_append]
    exact hfits

/-- A slice that starts with a string. -/
theorem getLengthPrefixedSlice_holds {mem t bytes : List UInt8} {input : SlicePtr}
    (ht : t.length < 2 ^ 31) (h : input.Holds mem (prefixed t ++ bytes)) (result : SlicePtr) :
    ∃ next r, getLengthPrefixedSlice mem input result = some (true, next, r) ∧ r.Holds mem t ∧
      next.Holds mem bytes := by
  have hvalue : (UInt32.ofNat t.length).toNat = t.length := by
    rw [UInt32.toNat_ofNat']
    omega
  have hint : (Int32.ofNat t.length).toInt = t.length := Int32.toInt_ofNat_of_lt ht
  rw [prefixed, List.append_assoc, ← hvalue] at h
  obtain ⟨next, hget, hnext⟩ := getVarInt32_holds (v := 0) h
  have hnextHolds := hnext.holds rfl h
  rw [hvalue] at hget
  have hlen := hnextHolds.len
  rw [List.length_append] at hlen
  have hfits : (t.length : ℤ) ≤ next.len.toInt := by omega
  have hmax := next.len.toInt_lt
  have hremoved : (Int32.ofInt (next.len.toInt - t.length)).toInt = next.len.toInt - t.length :=
    Int32.toInt_ofInt_of_le (by omega) (by omega)
  have hadvanced : next.Advanced t.length (sliceRemovePrefix next t.length) := ⟨rfl, hremoved⟩
  refine ⟨sliceRemovePrefix next t.length, ⟨next.p, .ofNat t.length⟩, ?_, ⟨hint, ?_⟩,
    hadvanced.holds rfl hnextHolds⟩
  · rw [getLengthPrefixedSlice, hget, Option.map_some]
    dsimp only
    rw [hint, if_pos ⟨rfl, hfits⟩]
  · obtain ⟨rest, hrest⟩ := hnextHolds.drop
    exact ⟨bytes ++ rest, by rw [hrest, List.append_assoc]⟩

theorem readsSlices_of_holds {mem : List UInt8} {ts : List (List UInt8)}
    (hts : ∀ t ∈ ts, t.length < 2 ^ 31) {input : SlicePtr}
    (h : input.Holds mem (ts.flatMap prefixed)) : ReadsSlices mem input ts := by
  induction ts generalizing input with
  | nil =>
    intro result
    rw [getLengthPrefixedSlice, (getVarInt_cut h fun b hb ↦ absurd hb List.not_mem_nil).1]
    rfl
  | cons t ts ih =>
    intro result
    rw [List.forall_mem_cons] at hts
    rw [List.flatMap_cons] at h
    obtain ⟨next, r, hget, hr, hnext⟩ := getLengthPrefixedSlice_holds hts.1 h result
    exact ⟨next, r, hget, hr, ih hts.2 hnext⟩

/-- A string is read only where the slice has all of it. -/
theorem getLengthPrefixedSlice_fits {mem t bytes : List UInt8} {input result next r : SlicePtr}
    (ht : t.length < 2 ^ 31) (h : input.Within mem) (hdrop : mem.drop input.p = prefixed t ++ bytes)
    (hget : getLengthPrefixedSlice mem input result = some (true, next, r)) :
    (prefixed t).length ≤ input.len.toInt ∧ input.Advanced (prefixed t).length next := by
  have hvalue : (UInt32.ofNat t.length).toNat = t.length := by
    rw [UInt32.toNat_ofNat']
    omega
  have hint : (Int32.ofNat t.length).toInt = t.length := Int32.toInt_ofNat_of_lt ht
  have hsplit : prefixed t ++ bytes = encode t.length ++ (t ++ bytes) := List.append_assoc _ _ _
  have hlength := congrArg List.length hdrop
  rw [hsplit, List.length_drop, List.length_append] at hlength
  rw [getLengthPrefixedSlice] at hget
  rcases lt_or_ge input.len.toInt (encode t.length).length with hshort | hlong
  · -- not even the length is there
    have hrefused : ∀ v, getVarInt32 mem input v = some (false, input, v) := fun v ↦ by
      rcases lt_or_ge input.len.toInt 0 with hneg | hpos
      · obtain ⟨hfalse, -⟩ | ⟨n, value, nx, -, hnext, -, hnonneg, -⟩ := getVarInt32_within h v
        · exact hfalse
        · have hlen := hnext.len
          omega
      · have hcut : input.Holds mem ((encode t.length).take input.len.toInt.toNat) := by
          refine ⟨?_, (encode t.length).drop input.len.toInt.toNat ++ (t ++ bytes), ?_⟩
          · rw [List.length_take]
            omega
          · rw [hdrop, hsplit, ← List.append_assoc (List.take _ _), List.take_append_drop]
        refine (getVarInt_cut hcut (continues_of_isPrefix (List.take_prefix _ _) fun heq ↦ ?_)).1
        have hlen := congrArg List.length heq
        rw [List.length_take] at hlen
        omega
    rw [hrefused, Option.map_some] at hget
    exact absurd (Prod.mk.inj (Option.some.inj hget)).1 Bool.false_ne_true
  · rw [SlicePtr.Within] at h
    have hslice : input.Holds mem
        (encode (UInt32.ofNat t.length).toNat ++
          (t ++ bytes).take (input.len.toInt.toNat - (encode t.length).length)) := by
      refine ⟨?_, (t ++ bytes).drop (input.len.toInt.toNat - (encode t.length).length), ?_⟩
      · rw [hvalue, List.length_append, List.length_take]
        omega
      · rw [hdrop, hsplit, hvalue, List.append_assoc, List.take_append_drop]
    obtain ⟨nx, hnx, hnext⟩ := getVarInt32_holds (v := 0) hslice
    rw [hvalue] at hnx hnext
    rw [hnx, Option.map_some] at hget
    dsimp only at hget
    have hp := hnext.p
    have hlen := hnext.len
    rw [hint] at hget
    split_ifs at hget with hfits
    · obtain ⟨-, hrest⟩ := Prod.mk.inj (Option.some.inj hget)
      obtain ⟨rfl, -⟩ := Prod.mk.inj hrest
      have hle := hfits.2
      have hmax := nx.len.toInt_lt
      have hremoved : (Int32.ofInt (nx.len.toInt - t.length)).toInt = nx.len.toInt - t.length :=
        Int32.toInt_ofInt_of_le (by omega) (by omega)
      rw [prefixed, List.length_append]
      refine ⟨by omega, ?_, ?_⟩
      · rw [sliceRemovePrefix, hp, Nat.add_assoc]
      · rw [sliceRemovePrefix, hremoved, hlen]
        push_cast
        omega
    · exact absurd (Prod.mk.inj (Option.some.inj hget)).1 Bool.false_ne_true

/-- A slice from which the strings are read has all of them. -/
theorem length_le_of_readsSlices {mem rest : List UInt8} {ts : List (List UInt8)}
    (hts : ∀ t ∈ ts, t.length < 2 ^ 31) :
    ∀ {input : SlicePtr}, ts ≠ [] ∨ 0 ≤ input.len.toInt → input.Within mem →
      mem.drop input.p = ts.flatMap prefixed ++ rest → ReadsSlices mem input ts →
      (ts.flatMap prefixed).length ≤ input.len.toInt := by
  induction ts with
  | nil => exact fun hpos _ _ _ ↦ hpos.resolve_left fun hne ↦ hne rfl
  | cons t ts ih =>
    intro input _ hwithin hdrop hreads
    rw [List.forall_mem_cons] at hts
    rw [List.flatMap_cons, List.append_assoc] at hdrop
    obtain ⟨next, r, hget, -, hrest⟩ := hreads input
    obtain ⟨hle, hnext⟩ := getLengthPrefixedSlice_fits hts.1 hwithin hdrop hget
    have hp := hnext.p
    have hlen := hnext.len
    have hdrop' : mem.drop next.p = ts.flatMap prefixed ++ rest := by
      rw [hp, ← List.drop_drop, hdrop, List.drop_left]
    rw [SlicePtr.Within] at hwithin
    have htail := ih hts.2 (Or.inr (by omega)) (by rw [SlicePtr.Within]; omega) hdrop' hrest
    rw [List.flatMap_cons, List.length_append]
    push_cast
    omega

/-- The strings can be written, and wherever the text then stands, reads of the slice over it, whose length
is that of the text as an `int`, return them. -/
def ReadsBack (ts : List (List UInt8)) : Prop :=
  ∃ s, appendSlices [] ts = some s ∧
    ∀ front rest : List UInt8, ReadsSlices (front ++ s ++ rest) ⟨front.length, .ofNat s.length⟩ ts

theorem readsBack_iff {ts : List (List UInt8)} (hts : ∀ t ∈ ts, t.length < 2 ^ 31) :
    ReadsBack ts ↔ (ts.flatMap prefixed).length < 2 ^ 31 := by
  have hdrop : ∀ front rest : List UInt8, (front ++ ts.flatMap prefixed ++ rest).drop front.length =
      ts.flatMap prefixed ++ rest := fun front rest ↦ by rw [List.append_assoc, List.drop_left]
  constructor
  · rintro ⟨s, happend, hreads⟩
    by_contra hlarge
    rw [appendSlices_eq hts (by decide), sdsCatLen] at happend
    split_ifs at happend
    obtain rfl : ts.flatMap prefixed = s := Option.some.inj happend
    have hmax := (Int32.ofNat (ts.flatMap prefixed).length).toInt_lt
    have hne : ts ≠ [] := by
      rintro rfl
      exact hlarge (by decide)
    have hwithin : SlicePtr.Within (ts.flatMap prefixed) ⟨0, .ofNat (ts.flatMap prefixed).length⟩ := by
      show ((0 : ℕ) : ℤ) + (Int32.ofNat (ts.flatMap prefixed).length).toInt ≤ _
      omega
    have hread : ReadsSlices (ts.flatMap prefixed) ⟨0, .ofNat (ts.flatMap prefixed).length⟩ ts := by
      have hread := hreads [] []
      rwa [List.nil_append, List.append_nil] at hread
    have hle := length_le_of_readsSlices hts (Or.inl hne) hwithin (List.append_nil _).symm hread
    dsimp only at hle
    omega
  · intro hlt
    have happend : appendSlices [] ts = some (ts.flatMap prefixed) := by
      rw [appendSlices_eq hts (by decide), sdsCatLen, if_pos (by rw [List.length_nil]; omega), List.nil_append]
    refine ⟨_, happend, fun front rest ↦ ?_⟩
    exact readsSlices_of_holds hts ⟨Int32.toInt_ofNat_of_lt hlt, rest, hdrop front rest⟩

/-- **Strings with their lengths in front.** Any input is read within its bounds if and only if it does not
start with a length from 2³¹ on, and strings that have been written are read back if and only if what was
written has a length that is an `int`. -/
theorem lengthPrefixedSlices {mem : List UInt8} {input : SlicePtr} (h : input.Within mem)
    (result : SlicePtr) : (AcceptsInside mem input result ↔ ¬StartsHuge 5 (input.bytes mem)) ∧
    ∀ ts : List (List UInt8), (∀ t ∈ ts, t.length < 2 ^ 31) →
      (ReadsBack ts ↔ (ts.flatMap prefixed).length < 2 ^ 31) :=
  ⟨acceptsInside_iff h, fun _ hts ↦ readsBack_iff hts⟩

/-- The two bytes `hi` with their length in front lie inside of the input, and `hi` and `""` are read back. -/
theorem lengthPrefixedSlices_hi :
    AcceptsInside [9, 2, 104, 105, 7] ⟨1, 4⟩ ⟨0, 0⟩ ∧ ReadsBack [[104, 105], []] := by
  have hwithin : SlicePtr.Within [9, 2, 104, 105, 7] ⟨1, 4⟩ := by
    rw [SlicePtr.Within]
    decide
  obtain ⟨haccepts, hround⟩ := lengthPrefixedSlices hwithin ⟨0, 0⟩
  have hbytes : [[104, 105], []].flatMap prefixed = [2, 104, 105, 0] := by
    simp [prefixed, encode_of_lt]
  refine ⟨haccepts.mpr fun hhuge ↦ hhuge.1.elim (by decide), (hround _ (by decide)).mpr ?_⟩
  rw [hbytes]
  decide

/-- The length 2³² - 1 in front of nothing is accepted. -/
theorem not_acceptsInside_huge : ¬AcceptsInside [255, 255, 255, 255, 15] ⟨0, 5⟩ ⟨0, 0⟩ := by
  rintro ⟨ret, next, r, heq, hinside⟩
  have hget : getLengthPrefixedSlice [255, 255, 255, 255, 15] ⟨0, 5⟩ ⟨0, 0⟩ =
      some (true, ⟨5 + (2 ^ 32 - 1), 1⟩, ⟨5, -1⟩) := by decide
  rw [hget] at heq
  obtain ⟨rfl, hrest⟩ := Prod.mk.inj (Option.some.inj heq)
  obtain ⟨-, rfl⟩ := Prod.mk.inj hrest
  obtain ⟨n, -, -, hlen, -⟩ := hinside rfl
  exact absurd hlen (by decide)

end LatteC
