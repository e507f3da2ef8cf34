import LatteC.Lzf.Decompress

/-!
# Compression

`lzf_compress` of `src/lzf/lzf_c.c`, with the settings of `src/lzf/lzfP.h`: `HLOG` 16, `VERY_FAST`,
`INIT_HTAB` 0, `STRICT_ALIGN` 0 and slots that are pointers.

The hash table is not cleared, so it may hold any addresses, and the address `base` of the input has a part in
what the code does with them. Inside the buffers pointers are offsets; a read behind the input or a write
outside the output has no value.
-/

namespace LatteC

open Block

/-- `FRST`. -/
def lzfFrst (inp : List UInt8) (p : ℕ) : Option UInt32 :=
  inp[p]?.bind fun a ↦ inp[p + 1]?.map fun b ↦ (a.toUInt32 <<< 8) ||| b.toUInt32

/-- `NEXT`. -/
def lzfNext (v : UInt32) (inp : List UInt8) (p : ℕ) : Option UInt32 :=
  inp[p + 2]?.map fun b ↦ (v <<< 8) ||| b.toUInt32

/-- `IDX`, under `VERY_FAST`. -/
def lzfIdx (h : UInt32) : ℕ := (((h >>> 8) - h * 5) &&& 65535).toNat

/-- The variables of `lzf_compress`. -/
structure LzfCompressState where
  ip : ℕ
  op : ℕ
  lit : ℕ
  hval : UInt32
  htab : ℕ → UInt64
  out : List UInt8

/-- `hval = NEXT (hval, ip); htab[IDX (hval)] = ip`, and what was in the slot. -/
def lzfHash (base : ℕ) (inp : List UInt8) (s : LzfCompressState) :
    Option (UInt64 × LzfCompressState) :=
  (lzfNext s.hval inp s.ip).map fun hval ↦
    (s.htab (lzfIdx hval),
      { s with hval := hval, htab := Function.update s.htab (lzfIdx hval) (UInt64.ofNat (base + s.ip)) })

/-- `off = ip - ref - 1`, a `size_t`. -/
def lzfOff (base ip : ℕ) (ref : UInt64) : ℕ := (2 ^ 64 + (base + ip) - ref.toNat - 1) % 2 ^ 64

/-- The test for a match: where `ref` points into the input, if the three bytes there are those at `ip`. The
bytes are looked at only if the address passes. -/
def lzfMatch (base : ℕ) (inp : List UInt8) (ip : ℕ) (ref : UInt64) : Option (Option ℕ) :=
  if lzfOff base ip ref < 8192 ∧ base < ref.toNat then
    (read inp (ref.toNat - base) 3).bind fun a ↦
      (read inp ip 3).map fun b ↦ if a = b then some (ref.toNat - base) else none
  else some none

/-- `n` rounds of `len++; if (ref [len] != ip [len]) break;`: the length, and if a `break` was taken. -/
def lzfUnrolled (inp : List UInt8) (ref ip : ℕ) : (n : ℕ) → (len : ℕ) → Option (ℕ × Bool)
  | 0, len => some (len, false)
  | n + 1, len =>
    inp[ref + (len + 1)]?.bind fun a ↦
      inp[ip + (len + 1)]?.bind fun b ↦
        if a ≠ b then some (len + 1, true) else lzfUnrolled inp ref ip n (len + 1)

/-- `do len++; while (len < maxlen && ref[len] == ip[len]);` -/
def lzfDoWhile (inp : List UInt8) (ref ip maxlen : ℕ) : (fuel : ℕ) → (len : ℕ) → Option ℕ
  | 0, _ => none
  | fuel + 1, len =>
    if len + 1 < maxlen then
      inp[ref + (len + 1)]?.bind fun a ↦
        inp[ip + (len + 1)]?.bind fun b ↦
          if a = b then lzfDoWhile inp ref ip maxlen fuel (len + 1) else some (len + 1)
    else some (len + 1)

/-- The length of a match. -/
def lzfMatchLen (inp : List UInt8) (ref ip maxlen : ℕ) : Option ℕ :=
  if 16 < maxlen then
    (lzfUnrolled inp ref ip 16 2).bind fun r ↦
      if r.2 then some r.1 else lzfDoWhile inp ref ip maxlen maxlen r.1
  else lzfDoWhile inp ref ip maxlen maxlen 2

/-- `op [- lit - 1] = lit - 1; op -= !lit;` -/
def lzfStopRun (s : LzfCompressState) : Option LzfCompressState :=
  (setCell s.out ((s.op : ℤ) - s.lit - 1) (UInt8.ofNat (s.lit + 255))).map fun out ↦
    { s with out := out, op := if s.lit = 0 then s.op - 1 else s.op }

/-- The two or three bytes of a back reference; `len` is the number of octets less 2. -/
def lzfEmitRef (s : LzfCompressState) (off len : ℕ) : Option LzfCompressState :=
  if len < 7 then
    (write s.out s.op [UInt8.ofNat (off / 256 + len * 32), UInt8.ofNat off]).map fun out ↦
      { s with out := out, op := s.op + 2 }
  else
    (write s.out s.op [UInt8.ofNat (off / 256 + 7 * 32), UInt8.ofNat (len - 7), UInt8.ofNat off]).map fun out ↦
      { s with out := out, op := s.op + 3 }

/-- `--ip; --ip; hval = FRST (ip);` and the slots of the two places. -/
def lzfRehash (base : ℕ) (inp : List UInt8) (s : LzfCompressState) : Option LzfCompressState :=
  (lzfFrst inp (s.ip - 2)).bind fun hval ↦
    (lzfHash base inp { s with ip := s.ip - 2, hval := hval }).bind fun r ↦
      (lzfHash base inp { r.2 with ip := r.2.ip + 1 }).map fun r ↦ { r.2 with ip := r.2.ip + 1 }

/-- How a round ends: the call returns 0, the loop is left, or the loop goes on. -/
inductive LzfRound
  | ret (out : List UInt8)
  | leave (s : LzfCompressState)
  | again (s : LzfCompressState)

/-- A round that has found a match. -/
def lzfMatched (base : ℕ) (inp : List UInt8) (s : LzfCompressState) (ref off : ℕ) : Option LzfRound :=
  if s.out.length ≤ s.op + 3 + 1 ∧ s.out.length ≤ (if s.lit = 0 then s.op - 1 else s.op) + 3 + 1 then
    some (.ret s.out)
  else
    (lzfStopRun s).bind fun s ↦
      (lzfMatchLen inp ref s.ip (min (inp.length - s.ip - 2) 264)).bind fun len ↦
        (lzfEmitRef s off (len - 2)).bind fun s ↦
          let s := { s with lit := 0, op := s.op + 1, ip := s.ip + 1 + (len - 2 + 1) }
          if inp.length ≤ s.ip + 2 then some (.leave s)
          else (lzfRehash base inp s).map .again

/-- `lit++; *op++ = *ip++;` and the end of a run of `MAX_LIT`. -/
def lzfLit (inp : List UInt8) (s : LzfCompressState) : Option LzfCompressState :=
  inp[s.ip]?.bind fun b ↦
    (write s.out s.op [b]).bind fun out ↦
      let s := { s with out := out, lit := s.lit + 1, op := s.op + 1, ip := s.ip + 1 }
      if s.lit = 32 then (lzfStopRun s).map fun s ↦ { s with lit := 0, op := s.op + 1 } else some s

/-- One round of the main loop. -/
def lzfCompressStep (base : ℕ) (inp : List UInt8) (s : LzfCompressState) : Option LzfRound :=
  (lzfHash base inp s).bind fun r ↦
    (lzfMatch base inp r.2.ip r.1).bind fun m ↦
      match m with
      | some ref => lzfMatched base inp r.2 ref (lzfOff base r.2.ip r.1)
      | none => if r.2.out.length ≤ r.2.op then some (.ret r.2.out) else (lzfLit inp r.2).map .again

/-- The last bytes, one by one. -/
def lzfLits (inp : List UInt8) : (n : ℕ) → LzfCompressState → Option LzfCompressState
  | 0, s => some s
  | n + 1, s => (lzfLit inp s).bind (lzfLits inp n)

/-- What comes behind the main loop. -/
def lzfFinish (inp : List UInt8) (s : LzfCompressState) : Option (ℕ × List UInt8) :=
  if s.out.length < s.op + 3 then some (0, s.out)
  else
    (lzfLits inp (inp.length - s.ip) s).bind fun s ↦ (lzfStopRun s).map fun s ↦ (s.op, s.out)

/-- The main loop. Every round takes a byte at least. -/
def lzfCompressLoop (base : ℕ) (inp : List UInt8) :
    (fuel : ℕ) → LzfCompressState → Option (ℕ × List UInt8)
  | 0, s => if s.ip + 2 < inp.length then none else lzfFinish inp s
  | fuel + 1, s =>
    if s.ip + 2 < inp.length then
      (lzfCompressStep base inp s).bind fun r ↦
        match r with
        | .ret out => some (0, out)
        | .leave s => lzfFinish inp s
        | .again s => lzfCompressLoop base inp fuel s
    else lzfFinish inp s

/-- `lzf_compress`: the number it returns, and the output buffer. -/
def lzfCompress (base : ℕ) (htab : ℕ → UInt64) (inp out : List UInt8) : Option (ℕ × List UInt8) :=
  if inp.length = 0 ∨ out.length = 0 then some (0, out)
  else (lzfFrst inp 0).bind fun hval ↦ lzfCompressLoop base inp inp.length ⟨0, 1, 0, hval, htab, out⟩


/-! ## Matches -/

section Match

variable {base : ℕ} {inp : List UInt8} {ref ip : ℕ}

/-- Whatever address a slot holds, what passes the test is a place in front of `ip`, with the same three
bytes. An address is not taken for one in front of the input because no object lies that low. -/
theorem lzfMatch_spec (hlow : 8192 ≤ base) (hhigh : base + inp.length ≤ 2 ^ 64)
    (hip : ip + 2 < inp.length) (slot : UInt64) :
    ∃ m, lzfMatch base inp ip slot = some m ∧ ∀ ref, m = some ref →
      ref < ip ∧ lzfOff base ip slot = ip - ref - 1 ∧ ip - ref ≤ 8192 ∧
        ∀ j < 3, inp[ref + j]? = inp[ip + j]? := by
  rw [lzfMatch]
  split_ifs with htest
  · obtain ⟨hoff, habove⟩ := htest
    have hslot := slot.toNat_lt
    have hplace : slot.toNat - base < ip ∧ lzfOff base ip slot = ip - (slot.toNat - base) - 1 ∧
        ip - (slot.toNat - base) ≤ 8192 := by
      rw [lzfOff] at hoff ⊢
      omega
    have hread : read inp (slot.toNat - base) 3 = some ((inp.drop (slot.toNat - base)).take 3) := by
      rw [Block.read, if_pos (by omega)]
    have hread' : read inp ip 3 = some ((inp.drop ip).take 3) := by
      rw [Block.read, if_pos (by omega)]
    rw [hread, hread', Option.bind_some, Option.map_some]
    refine ⟨_, rfl, fun ref hm ↦ ?_⟩
    split_ifs at hm with hsame
    obtain rfl := Option.some.inj hm
    refine ⟨hplace.1, hplace.2.1, hplace.2.2, fun j hj ↦ ?_⟩
    have hj' := congrArg (fun l : List UInt8 ↦ l[j]?) hsame
    simpa only [List.getElem?_take_of_lt hj, List.getElem?_drop] using hj'
  · exact ⟨none, rfl, fun ref hm ↦ by cases hm⟩

/-- The unrolled rounds. Every byte in front of the length they stop at is the same in both places. -/
theorem lzfUnrolled_spec (hbefore : ref < ip) {n len : ℕ} (hfit : ip + len + n < inp.length)
    (hsame : ∀ j ≤ len, inp[ref + j]? = inp[ip + j]?) :
    ∃ p, lzfUnrolled inp ref ip n len = some p ∧ len ≤ p.1 ∧ p.1 ≤ len + n ∧
      (p.2 = true → len < p.1) ∧ (∀ j < p.1, inp[ref + j]? = inp[ip + j]?) ∧
      (p.2 = false → p.1 = len + n ∧ inp[ref + p.1]? = inp[ip + p.1]?) := by
  induction n generalizing len with
  | zero =>
    exact ⟨_, rfl, le_rfl, le_rfl, fun h ↦ Bool.noConfusion h, fun j hj ↦ hsame j hj.le,
      fun _ ↦ ⟨rfl, hsame len le_rfl⟩⟩
  | succ n ih =>
    obtain ⟨a, ha⟩ : ∃ a, inp[ref + (len + 1)]? = some a := ⟨_, List.getElem?_eq_getElem (by omega)⟩
    obtain ⟨b, hb⟩ : ∃ b, inp[ip + (len + 1)]? = some b := ⟨_, List.getElem?_eq_getElem (by omega)⟩
    rw [lzfUnrolled, ha, hb, Option.bind_some, Option.bind_some]
    by_cases hab : a = b
    · have hsame' : ∀ j ≤ len + 1, inp[ref + j]? = inp[ip + j]? := fun j hj ↦ by
        obtain hj | rfl := Nat.lt_or_eq_of_le hj
        · exact hsame j (Nat.le_of_lt_succ hj)
        · rw [ha, hb, hab]
      obtain ⟨p, hp, hle, hle', hbroke, hall, hend⟩ := ih (by omega) hsame'
      rw [if_neg (not_not.mpr hab)]
      exact ⟨p, hp, by omega, by omega, fun _ ↦ by omega, hall,
        fun h ↦ ⟨by have := (hend h).1; omega, (hend h).2⟩⟩
    · rw [if_pos hab]
      exact ⟨_, rfl, Nat.le_succ _, by simp only; omega, fun _ ↦ Nat.lt_succ_self _,
        fun j hj ↦ hsame j (Nat.le_of_lt_succ hj), fun h ↦ Bool.noConfusion h⟩

/-- The loop behind them. -/
theorem lzfDoWhile_spec (hbefore : ref < ip) {maxlen fuel len : ℕ} (hfit : ip + maxlen ≤ inp.length)
    (hpos : 0 < fuel) (hfuel : maxlen ≤ fuel + len) (hsame : ∀ j ≤ len, inp[ref + j]? = inp[ip + j]?) :
    ∃ l, lzfDoWhile inp ref ip maxlen fuel len = some l ∧ len < l ∧ l ≤ max maxlen (len + 1) ∧
      ∀ j < l, inp[ref + j]? = inp[ip + j]? := by
  induction fuel generalizing len with
  | zero => exact absurd hpos (lt_irrefl 0)
  | succ fuel ih =>
    rw [lzfDoWhile]
    split_ifs with hlt
    · obtain ⟨a, ha⟩ : ∃ a, inp[ref + (len + 1)]? = some a := ⟨_, List.getElem?_eq_getElem (by omega)⟩
      obtain ⟨b, hb⟩ : ∃ b, inp[ip + (len + 1)]? = some b := ⟨_, List.getElem?_eq_getElem (by omega)⟩
      rw [ha, hb, Option.bind_some, Option.bind_some]
      split_ifs with hab
      · have hsame' : ∀ j ≤ len + 1, inp[ref + j]? = inp[ip + j]? := fun j hj ↦ by
          obtain hj | rfl := Nat.lt_or_eq_of_le hj
          · exact hsame j (Nat.le_of_lt_succ hj)
          · rw [ha, hb, hab]
        obtain ⟨l, hl, hlt', hle, hall⟩ := ih (by omega) (by omega) hsame'
        exact ⟨l, hl, by omega, by omega, hall⟩
      · exact ⟨_, rfl, Nat.lt_succ_self _, by omega, fun j hj ↦ hsame j (Nat.le_of_lt_succ hj)⟩
    · exact ⟨_, rfl, Nat.lt_succ_self _, Nat.le_max_right _ _, fun j hj ↦ hsame j (Nat.le_of_lt_succ hj)⟩

/-- **The length of a match**: at least three, within the input and the format, and every byte of it was
compared. -/
theorem lzfMatchLen_spec (hbefore : ref < ip) {maxlen : ℕ} (hpos : 0 < maxlen) (hmax : maxlen ≤ 264)
    (hfit : ip + 2 + maxlen ≤ inp.length) (hsame : ∀ j < 3, inp[ref + j]? = inp[ip + j]?) :
    ∃ l, lzfMatchLen inp ref ip maxlen = some l ∧ 3 ≤ l ∧ l ≤ maxlen + 2 ∧ l ≤ 264 ∧
      ∀ j < l, inp[ref + j]? = inp[ip + j]? := by
  have htwo : ∀ j ≤ 2, inp[ref + j]? = inp[ip + j]? := fun j hj ↦ hsame j (Nat.lt_succ_of_le hj)
  rw [lzfMatchLen]
  split_ifs with hlong
  · obtain ⟨p, hp, hle, hle', hbroke, hall, hend⟩ := lzfUnrolled_spec hbefore (by omega : ip + 2 + 16 < _) htwo
    rw [hp, Option.bind_some]
    cases hb : p.2 with
    | true =>
      have hlt := hbroke hb
      exact ⟨p.1, if_pos rfl, hlt, by omega, by omega, hall⟩
    | false =>
      obtain ⟨heq, hlast⟩ := hend hb
      have hsame' : ∀ j ≤ p.1, inp[ref + j]? = inp[ip + j]? := fun j hj ↦ by
        obtain hj | rfl := Nat.lt_or_eq_of_le hj
        · exact hall j hj
        · exact hlast
      obtain ⟨l, hl, hlt, hle₂, hall₂⟩ :=
        lzfDoWhile_spec hbefore (by omega : ip + maxlen ≤ _) hpos (Nat.le_add_right _ _) hsame'
      exact ⟨l, (if_neg Bool.false_ne_true).trans hl, by omega, by omega, by omega, hall₂⟩
  · obtain ⟨l, hl, hlt, hle, hall⟩ :=
      lzfDoWhile_spec hbefore (by omega : ip + maxlen ≤ _) hpos (Nat.le_add_right _ _) htwo
    exact ⟨l, hl, hlt, by omega, by omega, hall⟩

end Match

/-! ## What has been written -/

/-- The output holds the tokens of the first `ip` bytes, and `op` is behind them. -/
structure LzfClosed (inp : List UInt8) (n ip op : ℕ) (out : List UInt8) (ts : List (Lz77.Token UInt8)) :
    Prop where
  fits : ∀ t ∈ ts, LzfToken.Fits t
  length_out : out.length = n
  expand : Lz77.expand ts [] = some (inp.take ip)
  op_eq : op = (ts.flatMap LzfToken.encode).length
  front : ∃ rest, out = ts.flatMap LzfToken.encode ++ rest

/-- The output holds tokens, a place for the byte of a run, and the `lit` bytes of the run in front of `ip`.
The tokens are not much longer than their text. -/
structure LzfOpen (inp : List UInt8) (n : ℕ) (s : LzfCompressState) (ts : List (Lz77.Token UInt8)) :
    Prop where
  fits : ∀ t ∈ ts, LzfToken.Fits t
  length_out : s.out.length = n
  ip_le : s.ip ≤ inp.length
  lit_le : s.lit ≤ s.ip
  expand : Lz77.expand ts [] = some (inp.take (s.ip - s.lit))
  op_eq : s.op = (ts.flatMap LzfToken.encode).length + 1 + s.lit
  small : 32 * (ts.flatMap LzfToken.encode).length ≤ 33 * (s.ip - s.lit)
  front : s.lit = 0 ∧ s.out = ts.flatMap LzfToken.encode ∨
    ∃ x rest, s.out = ts.flatMap LzfToken.encode ++ x :: ((inp.take s.ip).drop (s.ip - s.lit) ++ rest)

section Output

variable {inp : List UInt8} {n : ℕ} {s : LzfCompressState} {ts : List (Lz77.Token UInt8)}

theorem LzfOpen.length_run (h : LzfOpen inp n s ts) :
    ((inp.take s.ip).drop (s.ip - s.lit)).length = s.lit := by
  have hlit := h.lit_le
  rw [List.length_drop, List.length_take_of_le h.ip_le]
  omega

/-- The place for the byte of a run is in the output as long as `op` is. -/
theorem LzfOpen.exists_front (h : LzfOpen inp n s ts) (hop : s.op ≤ n) :
    ∃ x rest, s.out = ts.flatMap LzfToken.encode ++ x :: ((inp.take s.ip).drop (s.ip - s.lit) ++ rest) := by
  obtain ⟨hlit, hout⟩ | hfront := h.front
  · have hop_eq := h.op_eq
    have hlen := h.length_out
    rw [hout] at hlen
    omega
  · exact hfront

/-- A run that is stopped is a token, and no token if it is empty. -/
theorem LzfOpen.stopRun (h : LzfOpen inp n s ts) (hop : s.op ≤ n) (hlit : s.lit ≤ 32) :
    ∃ s' ts', lzfStopRun s = some s' ∧ LzfClosed inp n s'.ip s'.op s'.out ts' ∧ s'.ip = s.ip ∧
      s'.lit = s.lit ∧ s'.op = if s.lit = 0 then s.op - 1 else s.op := by
  obtain ⟨x, rest, hout⟩ := h.exists_front hop
  have hop_eq := h.op_eq
  have hlen := h.length_run
  have hplace : (s.op : ℤ) - s.lit - 1 = ((ts.flatMap LzfToken.encode).length : ℕ) := by omega
  have hset : setCell s.out ((s.op : ℤ) - s.lit - 1) (UInt8.ofNat (s.lit + 255)) =
      some (ts.flatMap LzfToken.encode ++
        UInt8.ofNat (s.lit + 255) :: ((inp.take s.ip).drop (s.ip - s.lit) ++ rest)) := by
    rw [hplace, setCell_natCast (by rw [h.length_out]; omega), hout, List.set_append_right _ _ (le_refl _),
      Nat.sub_self, List.set_cons_zero]
  have hlength : (ts.flatMap LzfToken.encode ++
      UInt8.ofNat (s.lit + 255) :: ((inp.take s.ip).drop (s.ip - s.lit) ++ rest)).length = n := by
    rw [← h.length_out, hout]
    simp only [List.length_append, List.length_cons]
  rw [lzfStopRun, hset, Option.map_some]
  by_cases hzero : s.lit = 0
  · have hexpand := h.expand
    rw [hzero, Nat.sub_zero] at hexpand
    exact ⟨_, ts, rfl, ⟨h.fits, hlength, hexpand, by simp only [if_pos hzero]; omega, ⟨_, rfl⟩⟩, rfl, rfl, rfl⟩
  · have hbyte : UInt8.ofNat (s.lit + 255) = UInt8.ofNat (s.lit - 1) := by
      apply UInt8.toNat_inj.mp
      rw [UInt8.toNat_ofNat', UInt8.toNat_ofNat']
      omega
    have htoken : LzfToken.encode (.lit ((inp.take s.ip).drop (s.ip - s.lit))) =
        UInt8.ofNat (s.lit + 255) :: (inp.take s.ip).drop (s.ip - s.lit) := by
      rw [LzfToken.encode, hlen, hbyte]
    refine ⟨_, ts ++ [.lit ((inp.take s.ip).drop (s.ip - s.lit))], rfl,
      ⟨?_, hlength, ?_, ?_, ⟨rest, ?_⟩⟩, rfl, rfl, rfl⟩
    · rw [List.forall_mem_append, List.forall_mem_singleton]
      exact ⟨h.fits, by rw [hlen]; omega, by rw [hlen]; exact hlit⟩
    · have hle : s.ip - s.lit ≤ s.ip := Nat.sub_le _ _
      have hsplit := List.take_append_drop (s.ip - s.lit) (inp.take s.ip)
      rw [List.take_take, Nat.min_eq_left hle] at hsplit
      rw [Lz77.expand_snoc h.expand, Lz77.Token.extend, hsplit]
    · simp only [if_neg hzero, List.flatMap_append, List.length_append, List.flatMap_singleton, htoken,
        List.length_cons, hlen]
      omega
    · rw [List.flatMap_append, List.flatMap_singleton, htoken, List.append_assoc, List.cons_append]

/-- A run is started behind the tokens. -/
theorem LzfClosed.openRun (h : LzfClosed inp n s.ip s.op s.out ts) (hip : s.ip ≤ inp.length)
    (hsmall : 32 * s.op ≤ 33 * s.ip) : LzfOpen inp n { s with lit := 0, op := s.op + 1 } ts where
  fits := h.fits
  length_out := h.length_out
  ip_le := hip
  lit_le := Nat.zero_le _
  expand := h.expand
  op_eq := congrArg (· + 1) h.op_eq
  small := by
    rw [← h.op_eq]
    exact hsmall
  front := by
    obtain ⟨rest, hout⟩ := h.front
    cases rest with
    | nil => exact Or.inl ⟨rfl, by rw [hout, List.append_nil]⟩
    | cons x rest =>
      refine Or.inr ⟨x, rest, ?_⟩
      simp only [Nat.sub_zero]
      rw [hout, List.drop_eq_nil_of_le (by rw [List.length_take]; exact Nat.min_le_left _ _), List.nil_append]

/-- A byte more in the run. -/
theorem LzfOpen.pushByte (h : LzfOpen inp n s ts) (hop : s.op < n) {b : UInt8} (hb : inp[s.ip]? = some b) :
    ∃ out, write s.out s.op [b] = some out ∧
      LzfOpen inp n { s with out := out, lit := s.lit + 1, op := s.op + 1, ip := s.ip + 1 } ts := by
  obtain ⟨x, rest, hout⟩ := h.exists_front hop.le
  have hip : s.ip < inp.length := (List.getElem?_eq_some_iff.mp hb).1
  have hop_eq := h.op_eq
  have hlit := h.lit_le
  have hlen := h.length_run
  have hlength := h.length_out
  have hstart : s.ip + 1 - (s.lit + 1) = s.ip - s.lit := Nat.add_sub_add_right _ _ _
  cases rest with
  | nil =>
    rw [hout, List.length_append, List.length_cons, List.append_nil, hlen] at hlength
    omega
  | cons y rest =>
    have hwrite := write_append (ts.flatMap LzfToken.encode ++ x :: (inp.take s.ip).drop (s.ip - s.lit)) rest
      (X := [y]) (Y := [b]) rfl
    have hplace : (ts.flatMap LzfToken.encode ++ x :: (inp.take s.ip).drop (s.ip - s.lit)).length = s.op := by
      rw [List.length_append, List.length_cons, hlen]
      omega
    have hrun : (inp.take (s.ip + 1)).drop (s.ip - s.lit) = (inp.take s.ip).drop (s.ip - s.lit) ++ [b] := by
      rw [List.take_add_one, hb, Option.toList_some,
        List.drop_append_of_le_length (by rw [List.length_take_of_le h.ip_le]; exact Nat.sub_le _ _)]
    have hbefore : s.out =
        ts.flatMap LzfToken.encode ++ x :: (inp.take s.ip).drop (s.ip - s.lit) ++ [y] ++ rest := by
      rw [hout]
      simp only [List.append_assoc, List.cons_append, List.nil_append]
    rw [hplace, ← hbefore] at hwrite
    refine ⟨_, hwrite, ⟨h.fits, ?_, hip, Nat.succ_le_succ hlit, ?_, by simp only; omega, ?_,
      Or.inr ⟨x, rest, ?_⟩⟩⟩
    · rw [← hlength, hbefore]
      simp only [List.length_append, List.length_cons, List.length_nil]
    · rw [hstart]
      exact h.expand
    · rw [hstart]
      exact h.small
    · simp only [hstart, hrun, List.append_assoc, List.cons_append, List.nil_append]

/-- **One literal**, and a new run where this one is full. -/
theorem LzfOpen.literal (h : LzfOpen inp n s ts) (hlit : s.lit < 32) (hop : s.op < n)
    (hip : s.ip < inp.length) :
    ∃ s' ts', lzfLit inp s = some s' ∧ LzfOpen inp n s' ts' ∧ s'.lit < 32 ∧ s'.ip = s.ip + 1 ∧
      (s'.lit = s.lit + 1 ∧ s'.op = s.op + 1 ∨ s.lit = 31 ∧ s'.lit = 0 ∧ s'.op = s.op + 2) := by
  obtain ⟨b, hb⟩ : ∃ b, inp[s.ip]? = some b := ⟨_, List.getElem?_eq_getElem hip⟩
  obtain ⟨out, hwrite, hopen⟩ := h.pushByte hop hb
  simp only [lzfLit, hb, hwrite, Option.bind_some]
  by_cases hfull : s.lit + 1 = 32
  · obtain ⟨s', ts', hstop, hclosed, hip', hlit', hop'⟩ := hopen.stopRun hop hlit
    have hop_eq := hopen.op_eq
    have hsmall := hopen.small
    simp only [Nat.succ_ne_zero, if_false] at hip' hop' hop_eq hsmall
    rw [if_pos hfull, hstop, Option.map_some]
    refine ⟨_, ts', rfl, hclosed.openRun (by rw [hip']; exact hip) ?_, Nat.succ_pos 31, hip',
      Or.inr ⟨by omega, rfl, ?_⟩⟩
    · rw [hip', hop']
      have hle := h.lit_le
      omega
    · simp only [hop']
  · rw [if_neg hfull]
    exact ⟨_, ts, rfl, hopen, by simp only; omega, rfl, Or.inl ⟨rfl, rfl⟩⟩

/-- **One back reference** to bytes that were compared. -/
theorem LzfClosed.emitRef (h : LzfClosed inp n s.ip s.op s.out ts) {ref off len : ℕ} (hroom : s.op + 3 ≤ n)
    (hbefore : ref < s.ip) (hoff : off = s.ip - ref - 1) (hfar : s.ip - ref ≤ 8192) (hpos : 1 ≤ len)
    (hlen : len ≤ 262) (hfit : s.ip + (len + 2) ≤ inp.length)
    (hsame : ∀ j < len + 2, inp[ref + j]? = inp[s.ip + j]?) :
    ∃ s', lzfEmitRef s off len = some s' ∧
      LzfClosed inp n (s.ip + (len + 2)) s'.op s'.out (ts ++ [.ref (off + 1) (len + 2)]) ∧
      s'.ip = s.ip ∧ s'.op = s.op + if len < 7 then 2 else 3 := by
  obtain ⟨rest, hout⟩ := h.front
  have hop := h.op_eq
  have hlength := h.length_out
  have hdist : ∀ j < len + 2, inp[s.ip - (off + 1) + j]? = inp[s.ip + j]? := fun j hj ↦ by
    rw [show s.ip - (off + 1) = ref by omega]
    exact hsame j hj
  have hcopy := Lz77.copyBack_take (Nat.succ_pos off) (by omega) hfit hdist
  have hfits : ∀ t ∈ ts ++ [Lz77.Token.ref (off + 1) (len + 2)], LzfToken.Fits t := by
    rw [List.forall_mem_append, List.forall_mem_singleton]
    exact ⟨h.fits, by omega, by omega, by omega, by omega⟩
  have hexpand : Lz77.expand (ts ++ [Lz77.Token.ref (off + 1) (len + 2)]) [] =
      some (inp.take (s.ip + (len + 2))) := by
    rw [Lz77.expand_snoc h.expand, Lz77.Token.extend, hcopy]
  -- the bytes go behind the tokens, whatever is there
  have hstore : ∀ bytes : List UInt8, bytes.length ≤ 3 →
      LzfToken.encode (.ref (off + 1) (len + 2)) = bytes →
      ∃ out, write s.out s.op bytes = some out ∧
        LzfClosed inp n (s.ip + (len + 2)) (s.op + bytes.length) out (ts ++ [.ref (off + 1) (len + 2)]) := by
    intro bytes hbytes htoken
    have hsplit : s.out = ts.flatMap LzfToken.encode ++ rest.take bytes.length ++ rest.drop bytes.length := by
      rw [List.append_assoc, List.take_append_drop, hout]
    have hrest : bytes.length ≤ rest.length := by
      rw [hout, List.length_append] at hlength
      omega
    have hwrite := write_append (ts.flatMap LzfToken.encode) (rest.drop bytes.length)
      (X := rest.take bytes.length) (Y := bytes) (List.length_take_of_le hrest).symm
    rw [← hsplit, ← hop] at hwrite
    refine ⟨_, hwrite, hfits, ?_, hexpand, ?_, ⟨rest.drop bytes.length, ?_⟩⟩
    · rw [← hlength, hsplit]
      simp only [List.length_append, List.length_take_of_le hrest]
    · rw [List.flatMap_append, List.flatMap_singleton, htoken, List.length_append, hop]
    · rw [List.flatMap_append, List.flatMap_singleton, htoken]
  rw [lzfEmitRef]
  split_ifs with hshort
  · obtain ⟨out, hwrite, hclosed⟩ := hstore [_, _] (Nat.le_succ 2)
      (by rw [LzfToken.encode, if_pos (by omega), Nat.add_sub_cancel, Nat.add_sub_cancel])
    rw [hwrite]
    exact ⟨_, rfl, hclosed, rfl, rfl⟩
  · obtain ⟨out, hwrite, hclosed⟩ := hstore [_, _, _] (Nat.le_refl 3)
      (by rw [LzfToken.encode, if_neg (by omega), Nat.add_sub_cancel, Nat.add_sub_add_right len 2 7])
    rw [hwrite]
    exact ⟨_, rfl, hclosed, rfl, rfl⟩

end Output

/-! ## The loop -/

section Loop

variable {base : ℕ} {inp : List UInt8} {n : ℕ} {s : LzfCompressState} {ts : List (Lz77.Token UInt8)}

/-- A slot is looked up and set; nothing else changes. -/
theorem lzfHash_spec (base : ℕ) {inp : List UInt8} (s : LzfCompressState) (hip : s.ip + 2 < inp.length) :
    ∃ slot hval htab, lzfHash base inp s = some (slot, { s with hval := hval, htab := htab }) := by
  obtain ⟨b, hb⟩ : ∃ b, inp[s.ip + 2]? = some b := ⟨_, List.getElem?_eq_getElem hip⟩
  rw [lzfHash, lzfNext, hb]
  exact ⟨_, _, _, rfl⟩

theorem lzfRehash_spec (base : ℕ) {inp : List UInt8} (s : LzfCompressState) (hip : s.ip + 2 < inp.length)
    (htwo : 2 ≤ s.ip) :
    ∃ hval htab, lzfRehash base inp s = some { s with hval := hval, htab := htab } := by
  have hip₁ : s.ip - 2 + 2 < inp.length := by omega
  have hip₂ : s.ip - 2 + 1 + 2 < inp.length := by omega
  obtain ⟨a, ha⟩ : ∃ a, inp[s.ip - 2]? = some a := ⟨_, List.getElem?_eq_getElem (by omega)⟩
  obtain ⟨b, hb⟩ : ∃ b, inp[s.ip - 2 + 1]? = some b := ⟨_, List.getElem?_eq_getElem (by omega)⟩
  obtain ⟨slot, hval, htab, hfirst⟩ :=
    lzfHash_spec base { s with ip := s.ip - 2, hval := (a.toUInt32 <<< 8) ||| b.toUInt32 } hip₁
  obtain ⟨slot', hval', htab', hsecond⟩ :=
    lzfHash_spec base { s with ip := s.ip - 2 + 1, hval := hval, htab := htab } hip₂
  rw [lzfRehash, lzfFrst, ha, hb]
  simp only [Option.bind_some, Option.map_some, hfirst, hsecond]
  refine ⟨hval', htab', ?_⟩
  rw [show s.ip - 2 + 1 + 1 = s.ip by omega]

/-- The invariant does not speak about hashes. -/
theorem LzfOpen.rehashed (h : LzfOpen inp n s ts) (hval : UInt32) (htab : ℕ → UInt64) :
    LzfOpen inp n { s with hval := hval, htab := htab } ts :=
  ⟨h.fits, h.length_out, h.ip_le, h.lit_le, h.expand, h.op_eq, h.small, h.front⟩

/-- What a round leaves: the call returns 0 for want of room, or the loop is left near the end of the input, or
it goes on behind where it was. -/
def LzfRoundSpec (inp : List UInt8) (n ip : ℕ) : LzfRound → Prop
  | .ret out => out.length = n ∧ 32 * n < 33 * inp.length + 192
  | .leave s => (∃ ts, LzfOpen inp n s ts) ∧ s.lit < 32 ∧ inp.length ≤ s.ip + 2
  | .again s => (∃ ts, LzfOpen inp n s ts) ∧ s.lit < 32 ∧ ip < s.ip

/-- A round with a match. -/
theorem LzfOpen.matched (h : LzfOpen inp n s ts) (hlit : s.lit < 32) (hip : s.ip + 2 < inp.length) {ref off : ℕ}
    (hbefore : ref < s.ip) (hoff : off = s.ip - ref - 1) (hfar : s.ip - ref ≤ 8192)
    (hsame : ∀ j < 3, inp[ref + j]? = inp[s.ip + j]?) :
    ∃ r, lzfMatched base inp s ref off = some r ∧ LzfRoundSpec inp n s.ip r := by
  have hop_eq := h.op_eq
  have hsmall := h.small
  have hlit_le := h.lit_le
  have hlength := h.length_out
  -- where the reference goes
  obtain ⟨op, hundo⟩ : ∃ op, (if s.lit = 0 then s.op - 1 else s.op) = op := ⟨_, rfl⟩
  have hop : (s.lit = 0 ∧ s.op = op + 1) ∨ (s.lit ≠ 0 ∧ s.op = op) := by
    split_ifs at hundo with hzero
    · exact Or.inl ⟨hzero, by omega⟩
    · exact Or.inr ⟨hzero, hundo⟩
  simp only [lzfMatched, hlength, hundo]
  by_cases hfull : n ≤ s.op + 3 + 1 ∧ n ≤ op + 3 + 1
  · -- no room
    rw [if_pos hfull]
    exact ⟨_, rfl, hlength, by omega⟩
  rw [if_neg hfull]
  obtain ⟨s₁, ts₁, hstop, hclosed, hip₁, -, hop₁⟩ := h.stopRun (by omega) hlit.le
  rw [hundo] at hop₁
  rw [← hip₁] at hip hbefore hoff hfar hsame
  obtain ⟨l, hl, hthree, hmax, hformat, hall⟩ := lzfMatchLen_spec hbefore
    (by omega : 0 < min (inp.length - s₁.ip - 2) 264) (Nat.min_le_right _ _) (by omega) hsame
  have hl2 : l - 2 + 2 = l := by omega
  have hall' : ∀ j < l - 2 + 2, inp[ref + j]? = inp[s₁.ip + j]? := by rwa [hl2]
  obtain ⟨s₂, hemit, hclosed₂, hip₂, hop₂⟩ :=
    hclosed.emitRef (by omega) hbefore hoff hfar (by omega) (by omega) (by omega) hall'
  simp only [hstop, Option.bind_some, hl, hemit]
  have hnext : s₂.ip + 1 + (l - 2 + 1) = s₁.ip + (l - 2 + 2) := by omega
  have hshorter : 32 * s₂.op ≤ 33 * (s₁.ip + (l - 2 + 2)) := by
    split_ifs at hop₂ <;> omega
  rw [← hnext] at hclosed₂ hshorter
  have hopen := LzfClosed.openRun (s := { s₂ with ip := s₂.ip + 1 + (l - 2 + 1) }) hclosed₂
    (by simp only; omega) hshorter
  by_cases hend : inp.length ≤ s₂.ip + 1 + (l - 2 + 1) + 2
  · rw [if_pos hend]
    exact ⟨_, rfl, ⟨_, hopen⟩, Nat.succ_pos 31, hend⟩
  · rw [if_neg hend]
    obtain ⟨hval, htab, hrehash⟩ := lzfRehash_spec base
      { s₂ with lit := 0, op := s₂.op + 1, ip := s₂.ip + 1 + (l - 2 + 1) } (Nat.not_le.mp hend)
      (by simp only; omega)
    rw [hrehash]
    exact ⟨_, rfl, ⟨_, hopen.rehashed hval htab⟩, Nat.succ_pos 31, by simp only; omega⟩

/-- **A round of the main loop.** -/
theorem LzfOpen.round (h : LzfOpen inp n s ts) (hlow : 8192 ≤ base) (hhigh : base + inp.length ≤ 2 ^ 64)
    (hlit : s.lit < 32) (hip : s.ip + 2 < inp.length) :
    ∃ r, lzfCompressStep base inp s = some r ∧ LzfRoundSpec inp n s.ip r := by
  obtain ⟨slot, hval, htab, hhash⟩ := lzfHash_spec base s hip
  have hopen := h.rehashed hval htab
  obtain ⟨m, hm, hmatch⟩ := lzfMatch_spec hlow hhigh hip slot
  rw [lzfCompressStep, hhash, Option.bind_some, hm, Option.bind_some]
  cases m with
  | some ref =>
    obtain ⟨hbefore, hoff, hfar, hsame⟩ := hmatch ref rfl
    exact hopen.matched hlit hip hbefore hoff hfar hsame
  | none =>
    simp only [h.length_out]
    split_ifs with hfull
    · have hop_eq := h.op_eq
      have hsmall := h.small
      have hlit_le := h.lit_le
      exact ⟨_, rfl, h.length_out, by omega⟩
    · obtain ⟨s', ts', hs', hopen', hlit', hip', -⟩ :=
        hopen.literal hlit (Nat.not_le.mp hfull) (by simp only; omega)
      rw [hs', Option.map_some]
      exact ⟨_, rfl, ⟨ts', hopen'⟩, hlit', by rw [hip']; exact Nat.lt_succ_self _⟩

/-- The last bytes. Two bytes and the byte of a run that is full are all that can be missing. -/
theorem LzfOpen.literals (h : LzfOpen inp n s ts) (hlit : s.lit < 32) {k : ℕ} (hk : k ≤ 32)
    (hip : s.ip + k ≤ inp.length) (hop : s.op + k + (if 32 ≤ s.lit + k then 1 else 0) ≤ n) :
    ∃ s' ts', lzfLits inp k s = some s' ∧ LzfOpen inp n s' ts' ∧ s'.lit < 32 ∧ s'.ip = s.ip + k ∧
      s'.op ≤ n := by
  induction k generalizing s ts with
  | zero => exact ⟨s, ts, rfl, h, hlit, rfl, by omega⟩
  | succ k ih =>
    obtain ⟨s₁, ts₁, hs₁, hopen, hlit₁, hip₁, hop₁⟩ := h.literal hlit (by omega) (by omega)
    have hop' : s₁.op + k + (if 32 ≤ s₁.lit + k then 1 else 0) ≤ n := by
      split_ifs at hop ⊢ <;> omega
    obtain ⟨s', ts', hs', hopen', hlit', hip', hle⟩ := ih hopen hlit₁ (by omega) (by omega) hop'
    exact ⟨s', ts', by rw [lzfLits, hs₁, Option.bind_some, hs'], hopen', hlit', by omega, hle⟩

/-- What a call of `lzf_compress` gives: 0 for want of room, or the tokens of the input. -/
structure LzfCompressed (inp : List UInt8) (n : ℕ) (r : ℕ × List UInt8) : Prop where
  length_out : r.2.length = n
  size_le : r.1 ≤ n
  tokens : r.1 ≠ 0 → ∃ ts, (∀ t ∈ ts, LzfToken.Fits t) ∧ r.2.take r.1 = ts.flatMap LzfToken.encode ∧
    Lz77.expand ts [] = some inp
  small : 32 * r.1 ≤ 33 * inp.length + 32
  room : 33 * inp.length + 192 ≤ 32 * n → r.1 ≠ 0

theorem LzfCompressed.of_full {out : List UInt8} (hout : out.length = n)
    (hfull : 32 * n < 33 * inp.length + 192) : LzfCompressed inp n (0, out) where
  length_out := hout
  size_le := Nat.zero_le _
  tokens h := absurd rfl h
  small := by simp only; omega
  room h := by omega

/-- **The end of a call.** -/
theorem LzfOpen.finish (h : LzfOpen inp n s ts) (hlit : s.lit < 32) (hend : inp.length ≤ s.ip + 2)
    (hne : 0 < inp.length) : ∃ r, lzfFinish inp s = some r ∧ LzfCompressed inp n r := by
  have hop_eq := h.op_eq
  have hsmall := h.small
  have hlit_le := h.lit_le
  have hip_le := h.ip_le
  rw [lzfFinish, h.length_out]
  split_ifs with hfull
  · exact ⟨_, rfl, .of_full h.length_out (by omega)⟩
  · obtain ⟨s₁, ts₁, hs₁, hopen, hlit₁, hip₁, hop₁⟩ := h.literals (k := inp.length - s.ip) hlit (by omega)
      (by omega) (by split_ifs <;> omega)
    obtain ⟨s₂, ts₂, hstop, hclosed, hip₂, -, hop₂⟩ := hopen.stopRun hop₁ hlit₁.le
    have hall : s₂.ip = inp.length := by omega
    have hexpand := hclosed.expand
    rw [hall, List.take_length] at hexpand
    obtain ⟨rest, hout⟩ := hclosed.front
    have hlength := hclosed.length_out
    have hsize := hclosed.op_eq
    have hop_eq₁ := hopen.op_eq
    have hsmall₁ := hopen.small
    have hlit_le₁ := hopen.lit_le
    rw [hs₁, Option.bind_some, hstop, Option.map_some]
    refine ⟨_, rfl, hlength, ?_, fun _ ↦ ⟨ts₂, hclosed.fits, ?_, hexpand⟩, ?_, fun _ hzero ↦ ?_⟩
    · rw [← hlength, hout, hsize, List.length_append]
      exact Nat.le_add_right _ _
    · simp only
      rw [hsize, hout, List.take_left]
    · simp only
      split_ifs at hop₂ <;> omega
    · -- an input that is not empty has a token
      simp only at hzero
      rw [hsize, List.length_eq_zero_iff] at hzero
      cases ts₂ with
      | nil =>
        obtain rfl := Option.some.inj hexpand
        exact absurd hne (lt_irrefl 0)
      | cons t ts₂ =>
        have hnone := (List.append_eq_nil_iff.mp ((List.flatMap_cons).symm.trans hzero)).1
        have hsome := congrArg List.length hnone
        cases t with
        | lit xs => exact absurd hsome (Nat.succ_ne_zero _)
        | ref d m =>
          rw [LzfToken.encode] at hsome
          split_ifs at hsome

/-- **The main loop and what is behind it.** -/
theorem LzfOpen.loop (h : LzfOpen inp n s ts) (hlow : 8192 ≤ base) (hhigh : base + inp.length ≤ 2 ^ 64)
    (hlit : s.lit < 32) (hne : 0 < inp.length) {fuel : ℕ} (hfuel : inp.length - s.ip ≤ fuel) :
    ∃ r, lzfCompressLoop base inp fuel s = some r ∧ LzfCompressed inp n r := by
  induction fuel generalizing s ts with
  | zero =>
    rw [lzfCompressLoop, if_neg (by omega)]
    exact h.finish hlit (by omega) hne
  | succ fuel ih =>
    rw [lzfCompressLoop]
    by_cases hip : s.ip + 2 < inp.length
    · obtain ⟨r, hr, hspec⟩ := h.round hlow hhigh hlit hip
      rw [if_pos hip, hr, Option.bind_some]
      cases r with
      | ret out => exact ⟨_, rfl, .of_full hspec.1 hspec.2⟩
      | leave s' =>
        obtain ⟨⟨ts', hopen⟩, hlit', hend⟩ := hspec
        exact hopen.finish hlit' hend hne
      | again s' =>
        obtain ⟨⟨ts', hopen⟩, hlit', hlt⟩ := hspec
        exact ih hopen hlit' (by omega)
    · rw [if_neg hip]
      exact h.finish hlit (Nat.not_lt.mp hip) hne

end Loop

/-- A call with two bytes or more of input. -/
theorem lzfCompress_spec {base : ℕ} {inp : List UInt8} (htab : ℕ → UInt64) (out : List UInt8)
    (hlow : 8192 ≤ base) (hhigh : base + inp.length ≤ 2 ^ 64) (htwo : 2 ≤ inp.length)
    (hout : 0 < out.length) :
    ∃ r, lzfCompress base htab inp out = some r ∧ LzfCompressed inp out.length r := by
  obtain ⟨a, ha⟩ : ∃ a, inp[0]? = some a := ⟨_, List.getElem?_eq_getElem (by omega)⟩
  obtain ⟨b, hb⟩ : ∃ b, inp[0 + 1]? = some b := ⟨_, List.getElem?_eq_getElem (by omega)⟩
  obtain ⟨x, rest, hcons⟩ := List.exists_cons_of_length_pos hout
  rw [lzfCompress, if_neg (by omega), lzfFrst, ha, hb]
  have hopen : LzfOpen inp out.length ⟨0, 1, 0, (a.toUInt32 <<< 8) ||| b.toUInt32, htab, out⟩ [] :=
    ⟨by simp, rfl, Nat.zero_le _, le_rfl, rfl, rfl, le_rfl, Or.inr ⟨x, rest, hcons⟩⟩
  exact hopen.loop hlow hhigh (Nat.succ_pos 31) (by omega) (Nat.sub_le _ _)

/-- The tokens of a call that found room. -/
theorem exists_tokens_of_lzfCompress {base size : ℕ} {inp out out' : List UInt8} {htab : ℕ → UInt64}
    (hlow : 8192 ≤ base) (hhigh : base + inp.length ≤ 2 ^ 64)
    (h : lzfCompress base htab inp out = some (size, out')) (hsize : size ≠ 0) :
    ∃ ts, (∀ t ∈ ts, LzfToken.Fits t) ∧ out'.take size = ts.flatMap LzfToken.encode ∧
      Lz77.expand ts [] = some inp := by
  by_cases hzero : inp.length = 0 ∨ out.length = 0
  · rw [lzfCompress, if_pos hzero] at h
    obtain ⟨rfl, -⟩ := Prod.mk.inj (Option.some.inj h)
    exact absurd rfl hsize
  · by_cases hone : inp.length = 1
    · rw [lzfCompress, if_neg hzero, lzfFrst, List.getElem?_eq_none (by omega : inp.length ≤ 0 + 1)] at h
      cases hhead : inp[0]? <;> rw [hhead] at h <;> cases h
    · obtain ⟨r, hr, hspec⟩ := lzfCompress_spec htab out hlow hhigh (by omega) (by omega)
      rw [h] at hr
      obtain rfl := Option.some.inj hr
      exact hspec.tokens hsize

/-- **Compression is safe.** Whatever addresses the hash table holds, `lzf_compress` comes to its end and stays
inside its buffers, but for an input of a single byte, whose second byte it reads. What it writes is not more
than the output holds, and at most a thirty-second and a byte more than the input; it never gives up when the
output is six bytes longer than that. -/
theorem lzfCompress_safe {base : ℕ} (htab : ℕ → UInt64) {inp : List UInt8} (out : List UInt8)
    (hlow : 8192 ≤ base) (hhigh : base + inp.length ≤ 2 ^ 64) :
    (lzfCompress base htab inp out = none ↔ inp.length = 1 ∧ out.length ≠ 0) ∧
      ∀ size out', lzfCompress base htab inp out = some (size, out') →
        out'.length = out.length ∧ size ≤ out.length ∧ 32 * size ≤ 33 * inp.length + 32 ∧
        (0 < inp.length → 33 * inp.length + 192 ≤ 32 * out.length → size ≠ 0) := by
  by_cases hzero : inp.length = 0 ∨ out.length = 0
  · have h : lzfCompress base htab inp out = some (0, out) := if_pos hzero
    rw [h]
    refine ⟨⟨fun hnone ↦ absurd hnone (Option.some_ne_none _), fun hone ↦ by omega⟩, fun size out' hr ↦ ?_⟩
    obtain ⟨rfl, rfl⟩ := Prod.mk.inj (Option.some.inj hr)
    exact ⟨rfl, Nat.zero_le _, Nat.zero_le _, fun hpos hroom ↦ by omega⟩
  · by_cases hone : inp.length = 1
    · have h : lzfCompress base htab inp out = none := by
        rw [lzfCompress, if_neg hzero, lzfFrst, List.getElem?_eq_none (by omega : inp.length ≤ 0 + 1)]
        cases inp[0]? <;> rfl
      rw [h]
      exact ⟨⟨fun _ ↦ ⟨hone, by omega⟩, fun _ ↦ rfl⟩, fun size out' hr ↦ by cases hr⟩
    · obtain ⟨r, hr, hspec⟩ := lzfCompress_spec htab out hlow hhigh (by omega) (by omega)
      rw [hr]
      refine ⟨⟨fun hnone ↦ absurd hnone (Option.some_ne_none _), fun h ↦ absurd h.1 hone⟩, fun size out' hr' ↦ ?_⟩
      obtain rfl := Option.some.inj hr'
      exact ⟨hspec.length_out, hspec.size_le, hspec.small, fun _ ↦ hspec.room⟩

/-- An input of four bytes at the address 65536, and an output of eleven. -/
theorem lzfCompress_safe_four :
    lzfCompress 65536 (fun _ ↦ 0) [1, 2, 3, 4] (List.replicate 11 0) ≠ none ∧
      ∀ size out', lzfCompress 65536 (fun _ ↦ 0) [1, 2, 3, 4] (List.replicate 11 0) = some (size, out') →
        out'.length = 11 ∧ size ≤ 5 ∧ size ≠ 0 := by
  obtain ⟨hfault, hruns⟩ := @lzfCompress_safe 65536 (fun _ ↦ 0) [1, 2, 3, 4] (List.replicate 11 0)
    (by decide) (by decide)
  refine ⟨mt hfault.mp (by decide), fun size out' h ↦ ?_⟩
  obtain ⟨hlength, -, hsmall, hroom⟩ := hruns size out' h
  have hsize : 32 * size ≤ 33 * 4 + 32 := hsmall
  exact ⟨hlength, by omega, hroom (by decide) (by decide)⟩

/-- **The round trip.** What `lzf_compress` writes, `lzf_decompress` takes back to the input, in any output
that has room for it and with nothing behind it touched; in one that has not, it says so. -/
theorem lzfDecompress_lzfCompress {base size : ℕ} {inp out out' : List UInt8} {htab : ℕ → UInt64}
    (hlow : 8192 ≤ base) (hhigh : base + inp.length ≤ 2 ^ 64)
    (h : lzfCompress base htab inp out = some (size, out')) (hsize : size ≠ 0) (dst : List UInt8) :
    (inp.length ≤ dst.length →
      lzfDecompress (out'.take size) dst = some ⟨inp.length, none, inp ++ dst.drop inp.length⟩) ∧
    (dst.length < inp.length →
      ∃ rest, lzfDecompress (out'.take size) dst = some ⟨0, some .e2big, rest⟩) := by
  obtain ⟨ts, hfits, hbytes, hexpand⟩ := exists_tokens_of_lzfCompress hlow hhigh h hsize
  obtain ⟨hok, hfull⟩ := lzfDecompressLoop_of_tokens [] dst hfits (Nat.sub_le (out'.take size).length 0)
    (Nat.zero_le _) hbytes hexpand
  rw [List.length_nil, Nat.zero_add] at hok hfull
  exact ⟨hok, hfull⟩

/-- Twelve bytes, in nine and back. -/
theorem lzfDecompress_lzfCompress_twelve :
    lzfDecompress ([2, 97, 98, 97, 160, 1, 1, 97, 98, 0, 0, 0].take 9) (List.replicate 12 0) =
      some ⟨12, none, [97, 98, 97, 98, 97, 98, 97, 98, 97, 98, 97, 98] ++ []⟩ := by
  have h : lzfCompress 65536 (fun _ ↦ 0) [97, 98, 97, 98, 97, 98, 97, 98, 97, 98, 97, 98]
      (List.replicate 12 0) = some (9, [2, 97, 98, 97, 160, 1, 1, 97, 98, 0, 0, 0]) := by decide
  exact (lzfDecompress_lzfCompress (by decide) (by decide) h (by decide) (List.replicate 12 0)).1 (by decide)

end LatteC
