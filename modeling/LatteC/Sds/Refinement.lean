import LatteC.Sds.Header

/-!
# Strings against plain byte strings

What `Sds` keeps through every call: the header describes the block, the byte behind the content is
NUL, and the content is the byte string that the same calls make of a plain one. A call may also stop
the program, when no memory is left or when a size does not fit into a `size_t`.
-/

namespace LatteC

open Block

namespace Sds

/-! ## The invariant -/

/-- The header describes the buffer. -/
structure Fits (t : SdsType) (len alloc : ℕ) (buf : List UInt8) : Prop where
  len_le : len ≤ alloc
  alloc_le : alloc ≤ sdsTypeMaxSize t
  alloc_lt : alloc < buf.length
  /-- The shortest header has no field for the room. -/
  short : t = .type5 → alloc = len
  block_lt : sdsHdrSize t + buf.length < 2 ^ 64

/-- The string `s` holds the bytes `b`. -/
def Holds (s : Sds) (b : List UInt8) : Prop :=
  ∃ t alloc buf, s = rep t b.length alloc buf ∧ Fits t b.length alloc buf ∧
    buf.take (b.length + 1) = b ++ [0]

/-- What the readers of the header and the content find: `len ≤ alloc`, a type that can represent
`alloc`, a block with that much room, the bytes `b`, and a NUL behind them. -/
structure Valid (s : Sds) (b : List UInt8) : Prop where
  header : ∃ t alloc, s.type = .ok t ∧ s.len = .ok b.length ∧ s.alloc = .ok alloc ∧
    b.length ≤ alloc ∧ alloc ≤ sdsTypeMaxSize t ∧ s.pos + alloc < s.block.length
  content : Block.read s.block s.pos b.length = some b
  nul : Block.read s.block (s.pos + b.length) 1 = some [0]

section Lemmas

variable {t : SdsType} {len alloc : ℕ} {buf b : List UInt8} {s : Sds} {M : Zmalloc}

theorem Fits.len_max (h : Fits t len alloc buf) : len ≤ sdsTypeMaxSize t := le_trans h.len_le h.alloc_le

theorem Fits.alloc_rep (h : Fits t len alloc buf) : (rep t len alloc buf).alloc = .ok alloc := by
  rw [Sds.alloc_rep h.len_max h.alloc_le]
  split_ifs with ht
  · rw [h.short ht]
  · rfl

theorem Fits.avail_rep (h : Fits t len alloc buf) :
    (rep t len alloc buf).avail = .ok (alloc - len) := by
  rw [Sds.avail_rep h.len_le h.alloc_le]
  split_ifs with ht
  · rw [h.short ht, Nat.sub_self]
  · rfl

theorem Holds.valid (h : Holds s b) : Valid s b := by
  obtain ⟨t, alloc, buf, rfl, hfits, hbuf⟩ := h
  have hlt : b.length < buf.length := lt_of_le_of_lt hfits.len_le hfits.alloc_lt
  have hsplit : buf = b ++ [0] ++ buf.drop (b.length + 1) := by
    rw [← hbuf, List.take_append_drop]
  refine ⟨⟨t, alloc, type_rep, len_rep hfits.len_max, hfits.alloc_rep, hfits.len_le, hfits.alloc_le, ?_⟩,
    ?_, ?_⟩
  · rw [rep, length_block_frame (length_leBytes _ _) (length_leBytes _ _), pos_frame]
    exact Nat.add_lt_add_left hfits.alloc_lt _
  · have hread := read_append [] b ([0] ++ buf.drop (b.length + 1))
    rw [List.nil_append, ← List.append_assoc, ← hsplit, List.length_nil] at hread
    exact read_frame (length_leBytes _ _) (length_leBytes _ _) hread
  · have hread := read_append b [0] (buf.drop (b.length + 1))
    rw [← hsplit, List.length_singleton] at hread
    exact read_frame (length_leBytes _ _) (length_leBytes _ _) hread

/-- A header that is right up to the room, which the shortest one does not say. -/
theorem exists_fits (hlen : len ≤ alloc) (hmax : alloc ≤ sdsTypeMaxSize t) (hlt : alloc < buf.length)
    (hblock : sdsHdrSize t + buf.length < 2 ^ 64) :
    ∃ a, rep t len alloc buf = rep t len a buf ∧ Fits t len a buf ∧ (t ≠ .type5 → a = alloc) := by
  by_cases ht : t = .type5
  · subst ht
    exact ⟨len, rep_type5 len, ⟨le_rfl, by omega, by omega, fun _ ↦ rfl, hblock⟩, absurd rfl⟩
  · exact ⟨alloc, rfl, ⟨hlen, hmax, hlt, fun h5 ↦ absurd h5 ht, hblock⟩, fun _ ↦ rfl⟩

/-- The content, without its NUL. -/
theorem take_of_terminated (h : buf.take (b.length + 1) = b ++ [0]) : buf.take b.length = b := by
  have := congrArg (List.take b.length) h
  rwa [List.take_take, Nat.min_eq_left (Nat.le_succ _), List.take_left] at this

/-- Storing the NUL makes a string of whatever stands in front of it. -/
theorem Fits.terminate (h : Fits t len alloc buf) :
    ∃ s', (rep t len alloc buf).store len [0] = .ok s' ∧ Holds s' (buf.take len) := by
  have hlt : len < buf.length := lt_of_le_of_lt h.len_le h.alloc_lt
  obtain ⟨buf', hwrite, hlen, htake⟩ := write_of_le (show len + [(0 : UInt8)].length ≤ buf.length from hlt)
  have hcontent : (buf.take len).length = len := by
    rw [List.length_take]
    omega
  refine ⟨_, store_rep hwrite, t, alloc, buf', ?_, ?_, ?_⟩
  · rw [hcontent]
  · rw [hcontent]
    exact ⟨h.len_le, h.alloc_le, by rw [hlen]; exact h.alloc_lt, h.short,
      by rw [hlen]; exact h.block_lt⟩
  · rw [hcontent]
    exact htake

end Lemmas

/-! ## Outcomes -/

/-- A call either leaves a string as described, or stops the program: on an assertion, and then a
size is too large, or because the allocator refused. -/
def Outcome (M : Zmalloc) (tooLarge : Prop) (post : Sds → Prop) : SdsResult Sds → Prop
  | .ok s => post s
  | .error .assert => tooLarge
  | .error .oom => ∃ n, M.malloc n = none
  | .error .null => False
  | .error .fault => False

theorem Outcome.bind {M : Zmalloc} {big : Prop} {post post' : Sds → Prop} {r : SdsResult Sds}
    {f : Sds → SdsResult Sds} (h : Outcome M big post r)
    (hf : ∀ s, post s → Outcome M big post' (f s)) : Outcome M big post' (r >>= f) := by
  match r, h with
  | .ok s, h => exact hf s h
  | .error .assert, h => exact h
  | .error .oom, h => exact h

/-- The string that a call returns may be used for what is said of it. -/
theorem Outcome.imp {M : Zmalloc} {big : Prop} {post post' : Sds → Prop} {r : SdsResult Sds}
    (h : Outcome M big post r) (hf : ∀ s, r = .ok s → post s → post' s) : Outcome M big post' r := by
  match r, h with
  | .ok s, h => exact hf s rfl h
  | .error .assert, h => exact h
  | .error .oom, h => exact h

theorem Outcome.mono {M : Zmalloc} {big big' : Prop} {post post' : Sds → Prop} {r : SdsResult Sds}
    (h : Outcome M big post r) (ho : big → big') (hf : ∀ s, post s → post' s) :
    Outcome M big' post' r := by
  match r, h with
  | .ok s, h => exact hf s h
  | .error .assert, h => exact ho h
  | .error .oom, h => exact h

/-! ## The room of a new block -/

/-- A block of at least the size that was asked for gives room for what it was asked for. -/
theorem Fits.of_usable {t : SdsType} {len room L : ℕ} {buf : List UInt8} (hlen : len ≤ room)
    (hroom : room ≤ sdsTypeMaxSize t) (hL : sdsHdrSize t + room + 1 ≤ L) (hlt : L < 2 ^ 64)
    (hbuf : sdsHdrSize t + buf.length = L) :
    ∃ alloc, rep t len (usableRoom t L) buf = rep t len alloc buf ∧ Fits t len alloc buf ∧
      (t ≠ .type5 → room ≤ alloc) := by
  have husable : usableSub (usableSub L (sdsHdrSize t)) 1 = L - sdsHdrSize t - 1 := by
    have := sdsHdrSize_le t
    simp only [usableSub]
    omega
  have hcap : room ≤ usableRoom t L ∧ usableRoom t L ≤ sdsTypeMaxSize t ∧
      usableRoom t L < buf.length := by
    rw [usableRoom, husable]
    split_ifs <;> omega
  obtain ⟨alloc, hrep, hfits, halloc⟩ := exists_fits (le_trans hlen hcap.1) hcap.2.1 hcap.2.2
    (hbuf ▸ hlt)
  exact ⟨alloc, hrep, hfits, fun ht ↦ by rw [halloc ht]; exact hcap.1⟩

/-! ## Creation -/

/-- What the new string holds. -/
def Init.Content : Init → List UInt8 → Prop
  | bytes xs, b => b = xs
  | null n, b => b = List.replicate n 0
  | noinit n, b => b.length = n

/-- The header type of a new string can hold its length. -/
private theorem le_max_newType {n : ℕ} (h : n < 2 ^ 64) :
    n ≤ sdsTypeMaxSize (if sdsReqType n = .type5 ∧ n = 0 then .type8 else sdsReqType n) := by
  split_ifs with h0
  · rw [h0.2]
    exact Nat.zero_le _
  · exact le_sdsTypeMaxSize_sdsReqType h

private theorem memset_spec (init : Init) {sh : List UInt8} {hdrlen : ℕ}
    (h : hdrlen + init.initlen + 1 ≤ sh.length) :
    ∃ sh', init.memset sh hdrlen = .ok sh' ∧ sh'.length = sh.length ∧
      ∀ n, init = .null n → (sh'.drop hdrlen).take n = List.replicate n 0 := by
  cases init with
  | bytes xs => exact ⟨sh, rfl, rfl, fun n hn ↦ by cases hn⟩
  | noinit n => exact ⟨sh, rfl, rfl, fun n hn ↦ by cases hn⟩
  | null n =>
    rw [Init.initlen] at h
    obtain ⟨sh', hwrite, hlen, htake⟩ := write_of_le
      (show 0 + (List.replicate (hdrlen + n + 1) (0 : UInt8)).length ≤ sh.length by
        rw [List.length_replicate]
        omega)
    refine ⟨sh', by rw [Init.memset, hwrite]; rfl, hlen, ?_⟩
    rintro m hm
    obtain rfl := Init.null.inj hm
    rw [List.length_replicate, Nat.zero_add, List.take_zero, List.nil_append] at htake
    have hpre : sh'.take (hdrlen + n) = List.replicate (hdrlen + n) 0 := by
      have := congrArg (List.take (hdrlen + n)) htake
      rwa [List.take_take, Nat.min_eq_left (Nat.le_succ _), List.take_replicate,
        Nat.min_eq_left (Nat.le_succ _)] at this
    rw [List.take_drop, hpre, List.drop_replicate, Nat.add_sub_cancel_left]

private theorem memcpy_spec (init : Init) {t : SdsType} {a : ℕ} {buf : List UInt8}
    (h : init.initlen < buf.length)
    (hzero : ∀ n, init = .null n → buf.take n = List.replicate n 0) :
    ∃ buf', init.memcpy (rep t init.initlen a buf) = .ok (rep t init.initlen a buf') ∧
      buf'.length = buf.length ∧ init.Content (buf'.take init.initlen) := by
  cases init with
  | null n => exact ⟨buf, rfl, rfl, hzero n rfl⟩
  | noinit n =>
    refine ⟨buf, rfl, rfl, ?_⟩
    rw [Init.initlen] at h ⊢
    rw [Init.Content, List.length_take]
    omega
  | bytes xs =>
    rw [Init.initlen] at h ⊢
    rw [Init.memcpy]
    split_ifs with h0
    · rw [h0]
      exact ⟨buf, rfl, rfl, (List.length_eq_zero_iff.mp h0).symm⟩
    · obtain ⟨buf', hwrite, hlen, htake⟩ := write_of_le
        (show 0 + xs.length ≤ buf.length by omega)
      rw [Nat.zero_add, List.take_zero, List.nil_append] at htake
      exact ⟨buf', store_rep hwrite, hlen, htake⟩

theorem newLen_spec (M : Zmalloc) (init : Init) (h : init.initlen < 2 ^ 64) :
    Outcome M (2 ^ 64 ≤ init.initlen + 18) (fun s ↦ ∃ b, Holds s b ∧ init.Content b)
      (newLen M init) := by
  have hmax := le_max_newType h
  simp only [newLen]
  obtain ⟨t, ht⟩ : ∃ t, (if sdsReqType init.initlen = .type5 ∧ init.initlen = 0 then SdsType.type8
      else sdsReqType init.initlen) = t := ⟨_, rfl⟩
  rw [ht] at hmax ⊢
  have hhdr := sdsHdrSize_le t
  by_cases hassert : init.initlen < (init.initlen + sdsHdrSize t + 1) % 2 ^ 64
  swap
  · rw [sassert, if_neg hassert]
    show 2 ^ 64 ≤ init.initlen + 18
    omega
  rw [sassert, if_pos hassert]
  have hsize : (sdsHdrSize t + init.initlen + 1) % 2 ^ 64 = sdsHdrSize t + init.initlen + 1 := by
    omega
  rw [hsize]
  cases hsh : M.malloc (sdsHdrSize t + init.initlen + 1) with
  | none =>
    simp only [Zmalloc.alloc, hsh]
    exact ⟨_, hsh⟩
  | some sh =>
    have hle := M.le_length hsh
    obtain ⟨sh', hset, hlen, hzero⟩ := memset_spec init hle
    obtain ⟨F₁, F₂, c, h₁, h₂, hframe⟩ := exists_frame t (show sdsHdrSize t ≤ sh'.length by omega)
    have hbuf : sdsHdrSize t + (sh'.drop (sdsHdrSize t)).length = sh.length := by
      rw [List.length_drop]
      omega
    obtain ⟨buf, hcpy, hlenbuf, hcontent⟩ := memcpy_spec (t := t) (a := usableRoom t sh.length) init
      (by omega) hzero
    obtain ⟨alloc, hrep, hfits, -⟩ := Fits.of_usable le_rfl hmax hle (M.length_lt hsh)
      (show sdsHdrSize t + buf.length = sh.length by omega)
    obtain ⟨s', hstore, hholds⟩ := hfits.terminate
    simp only [Zmalloc.alloc, hsh, bind, Except.bind, hset, hframe, initHeader_frame h₁ h₂, hcpy, hrep,
      hstore]
    exact ⟨_, hholds, hcontent⟩

/-! ## Blocks of another size -/

/-- The buffer of a block of at least `n` bytes which begins with `k` bytes of an older one. -/
structure Copied (t : SdsType) (n k : ℕ) (old buf : List UInt8) : Prop where
  take_eq : buf.take k = old.take k
  le_length : n ≤ sdsHdrSize t + buf.length
  length_lt : sdsHdrSize t + buf.length < 2 ^ 64

/-- A string in such a block, of whose header only the type is known. -/
def Moved (t : SdsType) (n k : ℕ) (old : List UInt8) (s : Sds) : Prop :=
  ∃ F₁ F₂ l buf, F₁.length = t.width ∧ F₂.length = t.width ∧ s = frame t F₁ F₂ (flagByte t l) buf ∧
    Copied t n k old buf

section Move

variable {M : Zmalloc} {t : SdsType} {len alloc n k : ℕ} {buf : List UInt8}

/-- `zrealloc` keeps the header and what fits of the buffer. -/
theorem reallocBlock_spec (hn : sdsHdrSize t + k ≤ n) (hk : k ≤ buf.length) :
    Outcome M False (fun s ↦ ∃ buf', s = rep t len alloc buf' ∧ Copied t n k buf buf')
      ((rep t len alloc buf).reallocBlock M t n) := by
  have hpos := sdsHdrSize_pos t
  rw [reallocBlock, Zmalloc.realloc, if_neg (by omega)]
  cases hsh : M.malloc n with
  | none => exact ⟨n, hsh⟩
  | some fresh =>
    have hle := M.le_length hsh
    have hlt := M.length_lt hsh
    have hhdr := length_hdr_frame (t := t) (c := flagByte t len) (length_leBytes t.width len)
      (length_leBytes t.width alloc)
    have hblock : (rep t len alloc buf).block.length = sdsHdrSize t + buf.length :=
      length_block_frame (length_leBytes _ _) (length_leBytes _ _)
    have htake : (rep t len alloc buf).block.take n =
        leBytes t.width len ++ leBytes t.width alloc ++ [flagByte t len] ++
          buf.take (n - sdsHdrSize t) := by
      rw [rep, frame, List.take_append, List.take_of_length_le (by rw [hhdr]; omega), hhdr]
    have hsize : n ≤ sdsHdrSize t + (buf.take (n - sdsHdrSize t) ++
        fresh.drop (min n (rep t len alloc buf).block.length)).length ∧
        sdsHdrSize t + (buf.take (n - sdsHdrSize t) ++
          fresh.drop (min n (rep t len alloc buf).block.length)).length < 2 ^ 64 := by
      simp only [List.length_append, List.length_take, List.length_drop]
      rw [hblock]
      omega
    refine ⟨buf.take (n - sdsHdrSize t) ++ fresh.drop (min n (rep t len alloc buf).block.length), ?_,
      ?_, hsize.1, hsize.2⟩
    · rw [htake, List.append_assoc]
      rfl
    · rw [List.take_append_of_le_length (by rw [List.length_take]; omega), List.take_take,
        Nat.min_eq_left (by omega)]

/-- A new block with a header of the type `t'`, and the first bytes of the string. -/
theorem copyBlock_spec {t' : SdsType} (hn : sdsHdrSize t' + k ≤ n) (hk : k ≤ buf.length) :
    Outcome M False (Moved t' n k buf) ((rep t len alloc buf).copyBlock M t' k n) := by
  rw [copyBlock]
  cases hsh : M.malloc n with
  | none =>
    rw [Zmalloc.alloc, hsh]
    exact ⟨n, hsh⟩
  | some fresh =>
    have hle := M.le_length hsh
    have hlt := M.length_lt hsh
    have hread : Block.read (rep t len alloc buf).block (rep t len alloc buf).pos k =
        some (buf.take k) := by
      refine read_frame (i := 0) (length_leBytes _ _) (length_leBytes _ _) ?_
      rw [Block.read, if_pos (by omega), List.drop_zero]
    have hlenk : (buf.take k).length = k := by
      rw [List.length_take]
      omega
    obtain ⟨F₁, F₂, c, h₁, h₂, hframe⟩ := exists_frame t' (show sdsHdrSize t' ≤ fresh.length by omega)
    have hbuf : sdsHdrSize t' + (fresh.drop (sdsHdrSize t')).length = fresh.length := by
      rw [List.length_drop]
      omega
    obtain ⟨buf', hwrite, hlen', htake⟩ := write_of_le
      (show 0 + (buf.take k).length ≤ (fresh.drop (sdsHdrSize t')).length by omega)
    have hfresh : F₁ ++ F₂ ++ [c] ++ fresh.drop (sdsHdrSize t') = fresh :=
      (congrArg Sds.block hframe).symm
    have hcopy := write_prefix_append (F₁ ++ F₂ ++ [c]) hwrite
    rw [length_hdr_frame h₁ h₂, Nat.add_zero, hfresh] at hcopy
    have hpoke : poke ⟨F₁ ++ F₂ ++ [c] ++ buf', sdsHdrSize t'⟩ 1 [UInt8.ofNat t'.code] =
        .ok (frame t' F₁ F₂ (UInt8.ofNat t'.code) buf') := poke_flags_frame h₁ h₂ _
    simp only [Zmalloc.alloc, hsh, bind, Except.bind, hread, orFault, hcopy, hpoke]
    refine ⟨F₁, F₂, 0, buf', h₁, h₂, ?_, ?_, by omega, by omega⟩
    · rw [flagByte]
      cases t' <;> rfl
    · rw [Nat.zero_add, hlenk, List.take_zero, List.nil_append] at htake
      exact htake

/-- Setting the length of a string that was moved. -/
theorem setLen_moved {F₁ F₂ : List UInt8} (l : ℕ) (h₁ : F₁.length = t.width) (h₂ : F₂.length = t.width) :
    (frame t F₁ F₂ (flagByte t l) buf).setLen n =
      .ok (frame t (leBytes t.width n) F₂ (flagByte t n) buf) := by
  rw [setLen_frame h₁ h₂ (flagByte_mod t l)]
  simp only [flagByte]
  split_ifs <;> rfl

theorem setAlloc_moved {F₂ : List UInt8} (h₂ : F₂.length = t.width) (a : ℕ) :
    (frame t (leBytes t.width len) F₂ (flagByte t len) buf).setAlloc a = .ok (rep t len a buf) :=
  setAlloc_frame (length_leBytes _ _) h₂ (flagByte_mod t len) a

theorem growBlock_spec {t' : SdsType} (hn : sdsHdrSize t' + (len + 1) ≤ n) (hlen : len < buf.length) :
    Outcome M False
      (fun s ↦ ∃ F₂ buf', F₂.length = t'.width ∧
        s = frame t' (leBytes t'.width len) F₂ (flagByte t' len) buf' ∧ Copied t' n (len + 1) buf buf')
      ((rep t len alloc buf).growBlock M t t' len n) := by
  rw [growBlock]
  split_ifs with ht
  · subst ht
    refine (reallocBlock_spec hn hlen).mono id ?_
    rintro s ⟨buf', rfl, hcopied⟩
    exact ⟨leBytes t.width alloc, buf', length_leBytes _ _, rfl, hcopied⟩
  · refine (copyBlock_spec hn hlen).bind ?_
    rintro s ⟨F₁, F₂, l, buf', h₁, h₂, rfl, hcopied⟩
    rw [setLen_moved l h₁ h₂]
    exact ⟨F₂, buf', h₂, rfl, hcopied⟩

end Move

/-! ## Room -/

/-- The string holds `b`, and `addlen` more bytes have room. -/
def RoomFor (addlen : ℕ) (b : List UInt8) (s : Sds) : Prop :=
  ∃ t alloc buf, s = rep t b.length alloc buf ∧ Fits t b.length alloc buf ∧
    buf.take (b.length + 1) = b ++ [0] ∧ b.length + addlen ≤ alloc

theorem RoomFor.holds {addlen : ℕ} {b : List UInt8} {s : Sds} (h : RoomFor addlen b s) : Holds s b := by
  obtain ⟨t, alloc, buf, hs, hfits, hbuf, -⟩ := h
  exact ⟨t, alloc, buf, hs, hfits, hbuf⟩

/-- A size that is asked for, with the type that is chosen for it. -/
private theorem grownType_spec {n : ℕ} (h : n < 2 ^ 64) :
    (if sdsReqType n = .type5 then SdsType.type8 else sdsReqType n) ≠ .type5 ∧
      n ≤ sdsTypeMaxSize (if sdsReqType n = .type5 then .type8 else sdsReqType n) := by
  have hle := le_sdsTypeMaxSize_sdsReqType h
  split_ifs with h5
  · rw [h5] at hle
    exact ⟨by decide, le_trans hle (by decide)⟩
  · exact ⟨h5, hle⟩

/-- The size that is asked for in the place of `r`, which may have wrapped around. -/
private theorem newlen_bounds {exact : Bool} {r newlen : ℕ} (hr : r < 2 ^ 64)
    (h : (if exact = true then r else if r < maxPrealloc then r * 2 % 2 ^ 64
      else (r + maxPrealloc) % 2 ^ 64) = newlen) :
    newlen < 2 ^ 64 ∧ (r ≤ newlen ∨ 2 ^ 64 + newlen = r + maxPrealloc) ∧ newlen ≤ r + maxPrealloc := by
  have hprealloc : maxPrealloc = 2 ^ 20 := rfl
  split_ifs at h <;> omega

/-- The header `t` describes a buffer with room for `addlen` more bytes, which begins as `old` does, up to
the byte behind the content. -/
def Roomier (addlen len : ℕ) (old : List UInt8) (s : Sds) : Prop :=
  ∃ t alloc buf, s = rep t len alloc buf ∧ Fits t len alloc buf ∧
    buf.take (len + 1) = old.take (len + 1) ∧ len + addlen ≤ alloc

theorem makeRoomForFlags_rep (M : Zmalloc) {t : SdsType} {len alloc : ℕ} {buf : List UInt8}
    (hfits : Fits t len alloc buf) {addlen : ℕ} (hadd : addlen < 2 ^ 64) (exact : Bool) :
    Outcome M (2 ^ 64 ≤ len + addlen + maxPrealloc + 18) (Roomier addlen len buf)
      (makeRoomForFlags M (rep t len alloc buf) addlen exact) := by
  have hlen := hfits.len_max
  have hlt := lt_of_le_of_lt hlen (sdsTypeMaxSize_lt t)
  have hle := hfits.len_le
  simp only [makeRoomForFlags, hfits.avail_rep, type_rep, len_rep hlen, ok_bind]
  by_cases havail : alloc - len ≥ addlen
  · rw [if_pos havail]
    exact ⟨t, alloc, buf, rfl, hfits, rfl, by omega⟩
  rw [if_neg havail]
  by_cases hreq : (len + addlen) % 2 ^ 64 > len
  swap
  · rw [sassert, if_neg hreq]
    show 2 ^ 64 ≤ len + addlen + maxPrealloc + 18
    omega
  rw [sassert, if_pos hreq, ok_bind]
  have hreqlen : (len + addlen) % 2 ^ 64 = len + addlen := by omega
  rw [hreqlen]
  -- `newlen` may have wrapped around; the second assertion sees it
  obtain ⟨newlen, hnew⟩ : ∃ newlen, (if exact = true then len + addlen
      else if len + addlen < maxPrealloc then (len + addlen) * 2 % 2 ^ 64
      else (len + addlen + maxPrealloc) % 2 ^ 64) = newlen := ⟨_, rfl⟩
  obtain ⟨hnewlt, hnewge, hnewle⟩ := newlen_bounds (r := len + addlen) (by omega) hnew
  simp only [hnew]
  obtain ⟨hne, hmax⟩ := grownType_spec hnewlt
  obtain ⟨t', ht'⟩ : ∃ t', (if sdsReqType newlen = .type5 then SdsType.type8 else sdsReqType newlen) = t' :=
    ⟨_, rfl⟩
  simp only [ht'] at hne hmax ⊢
  have hhdr := sdsHdrSize_le t'
  have hprealloc : maxPrealloc = 2 ^ 20 := rfl
  by_cases hassert : (sdsHdrSize t' + newlen + 1) % 2 ^ 64 > len + addlen
  swap
  · rw [sassert, if_neg hassert]
    show 2 ^ 64 ≤ len + addlen + maxPrealloc + 18
    omega
  rw [sassert, if_pos hassert, ok_bind]
  have hnowrap : len + addlen ≤ newlen ∧ sdsHdrSize t' + newlen + 1 < 2 ^ 64 := by
    omega
  rw [Nat.mod_eq_of_lt hnowrap.2]
  have hsize : sdsHdrSize t' + (len + 1) ≤ sdsHdrSize t' + newlen + 1 := by omega
  refine ((growBlock_spec hsize (lt_of_le_of_lt hfits.len_le hfits.alloc_lt)).mono False.elim
    fun _ ↦ id).bind ?_
  rintro s ⟨F₂, buf', h₂, rfl, hcopied⟩
  obtain ⟨alloc', hrep, hfits', hroom⟩ := Fits.of_usable
    (show len ≤ newlen by omega) hmax hcopied.le_length hcopied.length_lt rfl
  rw [length_block_frame (length_leBytes _ _) h₂, setAlloc_moved h₂, hrep]
  have hroom' := hroom hne
  exact ⟨t', alloc', buf', rfl, hfits', hcopied.take_eq, by omega⟩

theorem makeRoomForFlags_spec (M : Zmalloc) {s : Sds} {b : List UInt8} (h : Holds s b) {addlen : ℕ}
    (hadd : addlen < 2 ^ 64) (exact : Bool) :
    Outcome M (2 ^ 64 ≤ b.length + addlen + maxPrealloc + 18) (RoomFor addlen b)
      (makeRoomForFlags M s addlen exact) := by
  obtain ⟨t, alloc, buf, rfl, hfits, hbuf⟩ := h
  refine (makeRoomForFlags_rep M hfits hadd exact).mono id ?_
  rintro s ⟨t', alloc', buf', rfl, hfits', htake, hroom⟩
  exact ⟨t', alloc', buf', rfl, hfits', htake.trans hbuf, hroom⟩

/-! ## Appending and cutting -/

theorem catLen_spec (M : Zmalloc) {s : Sds} {b : List UInt8} (h : Holds s b) {xs : List UInt8}
    (hxs : xs.length < 2 ^ 64) :
    Outcome M (2 ^ 64 ≤ b.length + xs.length + maxPrealloc + 18) (Holds · (b ++ xs))
      (catLen M s xs) := by
  have hlen : s.len = .ok b.length := by
    obtain ⟨t, alloc, buf, rfl, hfits, -⟩ := h
    exact len_rep hfits.len_max
  simp only [catLen, hlen, ok_bind, makeRoomFor]
  refine (makeRoomForFlags_spec M h hxs false).bind ?_
  rintro s ⟨t, alloc, buf, rfl, hfits, hbuf, hroom⟩
  have halloc := hfits.alloc_lt
  have hmax := lt_of_le_of_lt hfits.alloc_le (sdsTypeMaxSize_lt t)
  obtain ⟨buf', hwrite, hlen', htake⟩ := write_of_le (show b.length + xs.length ≤ buf.length by omega)
  rw [take_of_terminated hbuf] at htake
  have hsum : (b.length + xs.length) % 2 ^ 64 = (b ++ xs).length := by
    rw [List.length_append]
    omega
  have hfits' : Fits t (b ++ xs).length alloc buf' := by
    refine ⟨?_, hfits.alloc_le, by rw [hlen']; exact halloc, fun ht ↦ ?_, by rw [hlen']; exact hfits.block_lt⟩
    all_goals rw [List.length_append]
    · exact hroom
    · have := hfits.short ht
      omega
  obtain ⟨s', hstore, hholds⟩ := hfits'.terminate
  rw [← List.length_append] at htake
  rw [htake] at hholds
  rw [store_rep hwrite, ok_bind, hsum, setLen_rep, ok_bind, ← List.length_append, hstore]
  exact hholds

theorem clear_spec (M : Zmalloc) {s : Sds} {b : List UInt8} (h : Holds s b) :
    Outcome M False (Holds · []) s.clear := by
  obtain ⟨t, alloc, buf, rfl, hfits, hbuf⟩ := h
  obtain ⟨a, hrep, hfits', -⟩ := exists_fits (Nat.zero_le alloc) hfits.alloc_le hfits.alloc_lt
    hfits.block_lt
  obtain ⟨s', hstore, hholds⟩ := hfits'.terminate
  rw [clear, setLen_rep, ok_bind, hrep, hstore]
  exact hholds

/-! ## Resizing -/

theorem sdsTypeMaxSize_mono {t t' : SdsType} (h : t.code ≤ t'.code) :
    sdsTypeMaxSize t ≤ sdsTypeMaxSize t' := by
  cases t <;> cases t' <;> first | decide | exact absurd h (by decide)

theorem resizeBlock_spec (M : Zmalloc) {t t' : SdsType} {len alloc k size : ℕ} {buf : List UInt8}
    (hfits : Fits t len alloc buf) (hk : k ≤ len) (hsize : k ≤ size) (hlt : size + 18 < 2 ^ 64)
    (ht' : size ≤ sdsTypeMaxSize t') :
    Outcome M False
      (fun s ↦ ∃ t₁, size ≤ sdsTypeMaxSize t₁ ∧ Moved t₁ (sdsHdrSize t₁ + size + 1) k buf s)
      ((rep t len alloc buf).resizeBlock M t t' k size) := by
  have hkbuf : k ≤ buf.length := by
    have := hfits.len_le
    have := hfits.alloc_lt
    omega
  have hhdr := sdsHdrSize_le t
  have hhdr' := sdsHdrSize_le t'
  simp only [resizeBlock]
  rw [Nat.mod_eq_of_lt (show sdsHdrSize t + size + 1 < 2 ^ 64 by omega),
    Nat.mod_eq_of_lt (show sdsHdrSize t' + size + 1 < 2 ^ 64 by omega)]
  by_cases hreal : t = t' ∨ (t'.code < t.code ∧ t'.code > SdsType.type8.code)
  swap
  · rw [if_neg hreal]
    exact (copyBlock_spec (by omega) hkbuf).mono id fun s hs ↦ ⟨t', ht', hs⟩
  rw [if_pos hreal]
  have hmax : size ≤ sdsTypeMaxSize t := by
    rcases hreal with rfl | ⟨hcode, -⟩
    · exact ht'
    · exact le_trans ht' (sdsTypeMaxSize_mono hcode.le)
  by_cases hopt : M.nallocx.any (fun f ↦ f (sdsHdrSize t + size + 1) = (rep t len alloc buf).block.length) = true
  · rw [if_pos hopt]
    obtain ⟨f, hf, hblock⟩ := (Option.any_eq_true _ _).mp hopt
    have hle := M.le_nallocx hf (sdsHdrSize t + size + 1)
    rw [of_decide_eq_true hblock, rep, length_block_frame (length_leBytes _ _) (length_leBytes _ _)] at hle
    exact ⟨t, hmax, _, _, len, buf, length_leBytes _ _, length_leBytes _ _, rfl, rfl, hle, hfits.block_lt⟩
  · rw [if_neg hopt]
    refine (reallocBlock_spec (by omega) hkbuf).mono id ?_
    rintro s ⟨buf', rfl, hcopied⟩
    exact ⟨t, hmax, _, _, len, buf', length_leBytes _ _, length_leBytes _ _, rfl, hcopied⟩

theorem resize_spec (M : Zmalloc) {s : Sds} {b : List UInt8} (h : Holds s b) {size : ℕ}
    (hsize : size + 18 < 2 ^ 64) (wouldRegrow : Bool) :
    Outcome M False (Holds · (b.take size)) (resize M s size wouldRegrow) := by
  obtain ⟨t, alloc, buf, rfl, hfits, hbuf⟩ := h
  simp only [resize, type_rep, len_rep hfits.len_max, hfits.alloc_rep, ok_bind]
  by_cases hsame : alloc = size
  · rw [if_pos hsame, List.take_of_length_le (hsame ▸ hfits.len_le)]
    exact ⟨t, alloc, buf, rfl, hfits, hbuf⟩
  rw [if_neg hsame]
  obtain ⟨t', ht'⟩ : ∃ t', (if wouldRegrow = true ∧ sdsReqType size = .type5 then SdsType.type8
      else sdsReqType size) = t' := ⟨_, rfl⟩
  have hmax' : size ≤ sdsTypeMaxSize t' := by
    have hreq := le_sdsTypeMaxSize_sdsReqType (show size < 2 ^ 64 by omega)
    rw [← ht']
    split_ifs with h5
    · rw [h5.2] at hreq
      exact le_trans hreq (by decide)
    · exact hreq
  have hk : (if size < b.length then size else b.length) = (b.take size).length := by
    rw [List.length_take]
    split_ifs <;> omega
  have hkb : (b.take size).length ≤ b.length := by
    rw [List.length_take]
    omega
  have hks : (b.take size).length ≤ size := by
    rw [List.length_take]
    omega
  simp only [ht', hk]
  refine (resizeBlock_spec M hfits hkb hks hsize hmax').bind ?_
  rintro s ⟨t₁, hmax, F₁, F₂, l, buf₁, h₁, h₂, rfl, hcopied⟩
  have hlen₁ := hcopied.le_length
  obtain ⟨buf₂, hwrite, hlen₂, htake⟩ := write_of_le
    (show (b.take size).length + [(0 : UInt8)].length ≤ buf₁.length by
      rw [List.length_singleton]
      omega)
  have hb : buf.take (b.take size).length = b.take size := by
    have := congrArg (List.take (b.take size).length) (take_of_terminated hbuf)
    rw [List.take_take, Nat.min_eq_left hkb] at this
    rw [this, List.length_take, ← List.take_take, List.take_length]
  rw [hcopied.take_eq, hb] at htake
  obtain ⟨a, hrep, hfits', -⟩ := exists_fits hks hmax (show size < buf₂.length by omega)
    (by rw [hlen₂]; exact hcopied.length_lt)
  rw [store_frame h₁ h₂ hwrite, ok_bind, setLen_moved l h₁ h₂, ok_bind, setAlloc_moved h₂, hrep]
  exact ⟨t₁, a, buf₂, rfl, hfits', htake⟩

/-! ## Changes of the length -/

/-- What `sds_incr_len` makes of `b` after the caller wrote `room` behind it: a longer string ends in
what stands there, and a negative change cuts. -/
def IncrContent (room : List UInt8) (incr : ℤ) (b b' : List UInt8) : Prop :=
  if 0 ≤ incr then
    ∃ xs, b' = b ++ xs ∧ xs.length = incr.toNat ∧ xs.take room.length = room.take incr.toNat
  else b' = b.take (b.length - (-incr).toNat)

theorem incrContent_take {room b buf : List UInt8} {incr : ℤ}
    (htake : buf.take (b.length + room.length) = b ++ room) (hneg : -incr ≤ b.length)
    (hlen : (b.length + incr).toNat ≤ buf.length) :
    IncrContent room incr b (buf.take (b.length + incr).toNat) := by
  rw [List.take_add] at htake
  have hfit : (buf.take b.length).length = b.length := by
    have := congrArg List.length htake
    rw [List.length_append, List.length_append, List.length_take, List.length_take,
      List.length_drop] at this
    rw [List.length_take]
    omega
  obtain ⟨hb, hroom⟩ := List.append_inj htake hfit
  rw [IncrContent]
  split_ifs with hpos
  · obtain ⟨k, rfl⟩ := Int.eq_ofNat_of_zero_le hpos
    have hsum : ((b.length : ℤ) + k).toNat = b.length + k := by omega
    rw [hsum] at hlen ⊢
    refine ⟨(buf.drop b.length).take k, ?_, ?_, ?_⟩
    · rw [List.take_add, hb]
    · rw [List.length_take, List.length_drop, Int.toNat_natCast]
      omega
    · rw [Int.toNat_natCast, List.take_take, Nat.min_comm, ← List.take_take, hroom]
  · have hcut : (b.length + incr).toNat = b.length - (-incr).toNat := by omega
    have := congrArg (List.take (b.length - (-incr).toNat)) hb
    rw [hcut]
    rwa [List.take_take, Nat.min_eq_left (Nat.sub_le _ _)] at this

/-- The assertion lets every change within the room pass, but none by zero with the shortest header. -/
theorem incrAllowed_of_room {t : SdsType} {len alloc : ℕ} {incr : ℤ} (hle : len ≤ alloc)
    (hmax : alloc ≤ sdsTypeMaxSize t) (hpos : incr ≤ alloc - len) (hneg : -incr ≤ len)
    (hshort : t = .type5 → incr < 0) : incrAllowed t len alloc incr := by
  cases t
  · have := hshort rfl
    simp only [sdsTypeMaxSize] at hmax
    exact .inr ⟨this, by omega⟩
  all_goals
    simp only [sdsTypeMaxSize] at hmax
    simp only [incrAllowed]
    omega

/-- The new length, read back from its field. -/
private theorem newLength_eq {t : SdsType} (ht : t ≠ .type5) {len : ℕ} {incr : ℤ}
    (hneg : -incr ≤ len) (hmax : len + incr ≤ sdsTypeMaxSize t) :
    ((len + incr) % 2 ^ (8 * t.width)).toNat = (len + incr).toNat := by
  congr 1
  cases t
  · exact absurd rfl ht
  all_goals
    simp only [sdsTypeMaxSize] at hmax
    simp only [SdsType.width]
    omega

/-- `sds_incr_len`, after the caller's bytes are in the buffer. -/
theorem incrLen_rep {t : SdsType} {len alloc : ℕ} {buf : List UInt8} {incr : ℤ}
    (hfits : Fits t len alloc buf) (hpos : incr ≤ alloc - len) (hneg : -incr ≤ len)
    (hshort : t = .type5 → incr ≠ 0) :
    ∃ s', (rep t len alloc buf).incrLen incr = .ok s' ∧ Holds s' (buf.take (len + incr).toNat) := by
  have hle := hfits.len_le
  have hmax := hfits.alloc_le
  have hlt := sdsTypeMaxSize_lt t
  have hshort' : t = .type5 → incr < 0 := fun ht ↦ by
    have := hfits.short ht
    have := hshort ht
    omega
  have hallowed := incrAllowed_of_room hle hmax hpos hneg hshort'
  obtain ⟨a, hrep, hfits', -⟩ :=
    exists_fits (show (len + incr).toNat ≤ alloc by omega) hmax hfits.alloc_lt hfits.block_lt
  obtain ⟨s', hstore, hholds⟩ := hfits'.terminate
  refine ⟨s', ?_, hholds⟩
  by_cases ht : t = .type5
  · subst ht
    have halloc : incrAllowed .type5 len 0 incr := hallowed
    have hlen : ((len + incr) % 2 ^ 64).toNat = (len + incr).toNat := by
      congr 1
      omega
    simp only [incrLen, type_rep, ok_bind, len_rep hfits.len_max, sassert, if_pos halloc, hlen,
      setLen_rep, hrep, hstore]
  · have hlen := newLength_eq ht hneg (show (len : ℤ) + incr ≤ sdsTypeMaxSize t by omega)
    have hbody : (rep t len alloc buf).incrLen incr = (do
        sassert (incrAllowed t len alloc incr)
        let n := ((len + incr) % 2 ^ (8 * t.width)).toNat
        let s ← (rep t len alloc buf).setLen n
        s.store n [0]) := by
      rw [incrLen, type_rep, ok_bind]
      cases t
      · exact absurd rfl ht
      all_goals simp only [lenField_rep ht hfits.len_max, allocField_rep ht hmax, ok_bind]
    simp only [hbody, sassert, if_pos hallowed, ok_bind, hlen, setLen_rep, hrep, hstore]

end Sds

/-! ## Runs -/

/-- A call on one string, with what the caller passes. Before `sds_incr_len` the caller writes `room`
behind the content. -/
inductive SdsCall where
  | newLen (init : Sds.Init)
  | catLen (t : List UInt8)
  | makeRoomFor (addlen : ℕ)
  | makeRoomForExact (addlen : ℕ)
  | resize (size : ℕ) (wouldRegrow : Bool)
  | clear
  | incrLen (room : List UInt8) (incr : ℤ)

namespace SdsCall

open Sds

/-- The call on the string. A new string takes the place of the old one. -/
def exec (M : Zmalloc) (s : Sds) : SdsCall → SdsResult Sds
  | newLen init => Sds.newLen M init
  | catLen t => Sds.catLen M s t
  | makeRoomFor addlen => Sds.makeRoomFor M s addlen
  | makeRoomForExact addlen => Sds.makeRoomForExact M s addlen
  | resize size wouldRegrow => Sds.resize M s size wouldRegrow
  | clear => s.clear
  | incrLen room incr => do
    let len ← s.len
    let s ← s.store len room
    s.incrLen incr

/-- The same call on a plain byte string. Bytes that nobody wrote are any bytes. -/
def Plain (b b' : List UInt8) : SdsCall → Prop
  | newLen init => init.Content b'
  | catLen t => b' = b ++ t
  | makeRoomFor _ => b' = b
  | makeRoomForExact _ => b' = b
  | resize size _ => b' = b.take size
  | clear => b' = []
  | incrLen room incr => IncrContent room incr b b'

/-- What the caller keeps to: sizes are of type `size_t`, and a change of the length stays within the
room, as does what was written there. -/
def Within (s : Sds) : SdsCall → Prop
  | newLen init => init.initlen < 2 ^ 64
  | catLen t => t.length < 2 ^ 64
  | makeRoomFor addlen => addlen < 2 ^ 64
  | makeRoomForExact addlen => addlen < 2 ^ 64
  | resize size _ => size < 2 ^ 64
  | clear => True
  | incrLen room incr =>
    ∃ len avail : ℕ, s.len = .ok len ∧ s.avail = .ok avail ∧ room.length ≤ avail ∧ incr ≤ avail ∧
      -incr ≤ len

/-- The size of the block of `sds_resize` fits into a `size_t`, and the length of a string with the
shortest header does not change by zero. -/
def Sound (s : Sds) : SdsCall → Prop
  | resize size _ => size + 18 < 2 ^ 64
  | incrLen _ incr => s.type = .ok .type5 → incr ≠ 0
  | _ => True

/-- The string is to grow so far that its size no longer fits into a `size_t`. -/
def TooLarge (b : List UInt8) : SdsCall → Prop
  | newLen init => 2 ^ 64 ≤ init.initlen + 18
  | catLen t => 2 ^ 64 ≤ b.length + t.length + maxPrealloc + 18
  | makeRoomFor addlen => 2 ^ 64 ≤ b.length + addlen + maxPrealloc + 18
  | makeRoomForExact addlen => 2 ^ 64 ≤ b.length + addlen + maxPrealloc + 18
  | _ => False

/-- Every string of the run is valid and holds what the calls make of the plain byte string `b`. The
run ends early only when a size is too large or when the allocator refuses. -/
def Follows (b : List UInt8) : List (Zmalloc × SdsCall) → Sds → Prop
  | [], s => s.Valid b
  | (M, c) :: cs, s => s.Valid b ∧
    Outcome M (c.TooLarge b) (fun s' ↦ ∃ b', c.Plain b b' ∧ Follows b' cs s') (c.exec M s)

/-- One call keeps the invariant. -/
theorem exec_spec (M : Zmalloc) {s : Sds} {b : List UInt8} (h : Holds s b) {c : SdsCall}
    (hwithin : c.Within s) (hsound : c.Sound s) :
    Outcome M (c.TooLarge b) (fun s' ↦ ∃ b', c.Plain b b' ∧ Holds s' b') (c.exec M s) := by
  cases c with
  | newLen init =>
    exact (newLen_spec M init hwithin).mono id fun s' ⟨b', hholds, hcontent⟩ ↦ ⟨b', hcontent, hholds⟩
  | catLen t => exact (catLen_spec M h hwithin).mono id fun s' hs' ↦ ⟨_, rfl, hs'⟩
  | makeRoomFor addlen =>
    exact (makeRoomForFlags_spec M h hwithin false).mono id fun s' hs' ↦ ⟨b, rfl, hs'.holds⟩
  | makeRoomForExact addlen =>
    exact (makeRoomForFlags_spec M h hwithin true).mono id fun s' hs' ↦ ⟨b, rfl, hs'.holds⟩
  | resize size wouldRegrow =>
    exact (resize_spec M h hsound wouldRegrow).mono id fun s' hs' ↦ ⟨_, rfl, hs'⟩
  | clear => exact (clear_spec M h).mono id fun s' hs' ↦ ⟨[], rfl, hs'⟩
  | incrLen room incr =>
    obtain ⟨t, alloc, buf, rfl, hfits, hbuf⟩ := h
    obtain ⟨len, avail, hlen, havail, hroom, hpos, hneg⟩ := hwithin
    obtain rfl := Except.ok.inj ((len_rep hfits.len_max).symm.trans hlen)
    obtain rfl := Except.ok.inj (hfits.avail_rep.symm.trans havail)
    have hle := hfits.len_le
    have hlt := hfits.alloc_lt
    obtain ⟨buf', hwrite, hlen', htake⟩ := write_of_le (show b.length + room.length ≤ buf.length by omega)
    rw [take_of_terminated hbuf] at htake
    have hfits' : Fits t b.length alloc buf' :=
      ⟨hle, hfits.alloc_le, by rw [hlen']; exact hlt, hfits.short, by rw [hlen']; exact hfits.block_lt⟩
    obtain ⟨s', hincr, hholds⟩ := incrLen_rep hfits' (show incr ≤ alloc - b.length by omega) hneg
      fun ht ↦ hsound (by rw [type_rep, ht])
    have hexec : exec M (rep t b.length alloc buf) (incrLen room incr) = .ok s' := by
      rw [exec, len_rep hfits.len_max, ok_bind, store_rep hwrite, ok_bind, hincr]
    rw [hexec]
    exact ⟨_, incrContent_take htake hneg (by omega), hholds⟩

end SdsCall

end LatteC
