import LatteC.Fs.Writer

/-!
# Whole files

`envWriteSdsToFileSync` and `envReadFileToSds` of `src/fs/env.c`: a string that is written to a file, and the
file that is read back, in whatever pieces the kernel moves them.

A file is gone when it is removed, and its contents are `none` then.
-/

namespace LatteC

open Block

/-! ## Writing -/

/-- The calls of a write besides those of the writer: each with its `errno` if it fails. -/
structure EnvOutcomes where
  opened : Option ℕ
  outcomes : List IoOutcome
  synced : SyncOutcomes
  closed : Option ℕ
  removed : Option ℕ

/-- `envRemoveFile`, whose own error is dropped by its caller: the contents of the file behind it. -/
def envRemoveFile (removed : Option ℕ) (file : List UInt8) : Option (List UInt8) :=
  match removed with
  | none => none
  | some _ => some file

/-- `writableFileSync`, if `error` is ok and `should_sync` is set. -/
def envSyncIf (shouldSync : Bool) (synced : SyncOutcomes) (r : (WriteEnd × PosixWritableFile) × IoStatus) :
    Option ((WriteEnd × PosixWritableFile) × IoStatus) :=
  if r.2 = .ok ∧ shouldSync = true then posixWritableFileSync r.1.1 r.1.2 synced else some r

/-- `writableFileClose`, if `error` is ok. -/
def envCloseIf (closed : Option ℕ) (r : (WriteEnd × PosixWritableFile) × IoStatus) :
    Option ((WriteEnd × PosixWritableFile) × IoStatus) :=
  if r.2 = .ok then posixWritableFileClose r.1.1 r.1.2 closed else some r

/-- `envDoWriteSdsToFile`: what the file holds behind it, and the status. `old` is what it held, which a
successful `open` cuts off. -/
def envDoWriteSdsToFile (fname : List UInt8) (old : Option (List UInt8)) (data block : List UInt8) (fd : ℤ)
    (shouldSync : Bool) (o : EnvOutcomes) : Option (Option (List UInt8) × IoStatus) :=
  match o.opened with
  | some errno => some (old, .errnoIo errno fname)
  | none =>
    (posixWriteableFileAppend ⟨[], o.outcomes⟩ (posixWritableFileCreate fname fd block) data).bind fun r ↦
      (envSyncIf shouldSync o.synced r).bind fun r ↦
        (envCloseIf o.closed r).map fun r ↦
          if r.2 ≠ .ok then (envRemoveFile o.removed r.1.1.written, r.2)
          else (some r.1.1.written, .ok)

/-- `envWriteSdsToFileSync`. The length of the slice is an `int`, so that of a string of `2 ^ 32` bytes or
more only the first are written. Where the length is negative the append gets it as a `size_t`, and is not
modelled. -/
def envWriteSdsToFileSync (fname : List UInt8) (old : Option (List UInt8)) (data block : List UInt8)
    (fd : ℤ) (o : EnvOutcomes) : Option (Option (List UInt8) × IoStatus) :=
  let len := data.length % 2 ^ 32
  if len < 2 ^ 31 then envDoWriteSdsToFile fname old (data.take len) block fd true o else none

/-- A string whose length is an `int` is written as it is. -/
theorem envWriteSdsToFileSync_of_lt {data : List UInt8} (h : data.length < 2 ^ 31) (fname : List UInt8)
    (old : Option (List UInt8)) (block : List UInt8) (fd : ℤ) (o : EnvOutcomes) :
    envWriteSdsToFileSync fname old data block fd o = envDoWriteSdsToFile fname old data block fd true o := by
  have hmod : data.length % 2 ^ 32 = data.length := Nat.mod_eq_of_lt (h.trans (by decide))
  rw [envWriteSdsToFileSync, hmod, if_pos h, List.take_length]

theorem envSyncIf_spec {shouldSync : Bool} {synced : SyncOutcomes}
    {r r' : (WriteEnd × PosixWritableFile) × IoStatus} (h : r.1.2.Valid)
    (hr : envSyncIf shouldSync synced r = some r') :
    r'.1.2.Valid ∧ (r'.2 = .ok → r.2 = .ok ∧ contents r'.1 = contents r.1) := by
  rw [envSyncIf] at hr
  split_ifs at hr with hok
  · obtain ⟨hkept, -⟩ := posixWritableFileStep_spec (c := .sync synced) h hr
    exact ⟨hkept.valid, fun hst ↦ ⟨hok.1, (hkept.eq_of_ok hst).trans (List.append_nil _)⟩⟩
  · obtain rfl := Option.some.inj hr
    exact ⟨h, fun hst ↦ ⟨hst, rfl⟩⟩

theorem envCloseIf_spec {closed : Option ℕ} {r r' : (WriteEnd × PosixWritableFile) × IoStatus}
    (h : r.1.2.Valid) (hr : envCloseIf closed r = some r') (hst : r'.2 = .ok) :
    r.2 = .ok ∧ r'.1.1.written = contents r.1 := by
  rw [envCloseIf] at hr
  split_ifs at hr with hok
  · obtain ⟨hkept, hpos⟩ := posixWritableFileStep_spec (c := .close closed) h hr
    have heq := (hkept.eq_of_ok hst).trans (List.append_nil _)
    rw [contents, hpos rfl hst, List.take_zero, List.append_nil] at heq
    exact ⟨hok, heq⟩
  · obtain rfl := Option.some.inj hr
    exact absurd hst hok

/-- A write of a whole string: the file holds exactly that string if the write says so. If the write fails
behind the `open`, then the file is removed. -/
theorem envDoWriteSdsToFile_spec {fname data block : List UInt8} {old file : Option (List UInt8)} {fd : ℤ}
    {shouldSync : Bool} {o : EnvOutcomes} {st : IoStatus} (hblock : block.length = kWritableFileBufferSize)
    (h : envDoWriteSdsToFile fname old data block fd shouldSync o = some (file, st)) :
    (st = .ok → file = some data) ∧ (st ≠ .ok → o.removed = none → file = none ∨ file = old) := by
  rw [envDoWriteSdsToFile] at h
  cases hopened : o.opened with
  | some errno =>
    rw [hopened] at h
    obtain ⟨rfl, rfl⟩ := Prod.mk.inj (Option.some.inj h)
    exact ⟨fun hst ↦ IoStatus.noConfusion hst, fun _ _ ↦ Or.inr rfl⟩
  | none =>
    simp only [hopened, Option.bind_eq_some_iff, Option.map_eq_some_iff] at h
    obtain ⟨r₁, happend, r₂, hsync, r₃, hclose, heq⟩ := h
    have hnew := valid_posixWritableFileCreate fname fd hblock
    obtain ⟨hvalid₁, -, hok₁⟩ := posixWriteableFileAppend_spec hnew happend
    obtain ⟨hvalid₂, hok₂⟩ := envSyncIf_spec hvalid₁ hsync
    have hok₃ := envCloseIf_spec hvalid₂ hclose
    rw [contents_posixWritableFileCreate, List.nil_append] at hok₁
    by_cases hst : r₃.2 = .ok
    · rw [if_neg (not_not.mpr hst)] at heq
      obtain ⟨rfl, rfl⟩ := Prod.mk.inj heq
      obtain ⟨hst₂, hwritten⟩ := hok₃ hst
      obtain ⟨hst₁, hsame⟩ := hok₂ hst₂
      exact ⟨fun _ ↦ by rw [hwritten, hsame, hok₁ hst₁], fun hne ↦ absurd rfl hne⟩
    · rw [if_pos hst] at heq
      obtain ⟨rfl, rfl⟩ := Prod.mk.inj heq
      exact ⟨fun h ↦ absurd h hst, fun _ hremoved ↦ Or.inl (by rw [hremoved, envRemoveFile])⟩

/-! ## Reading -/

/-- One `read`: the first bytes that are left, none of them only at the end. -/
theorem posixSequentialFileRead_spec {filename : List UInt8} {n : ℕ} {outcomes : List IoOutcome}
    {rest : List UInt8} {slice : Slice} {r : (ReadEnd × Slice) × IoStatus}
    (houtcomes : ∀ o ∈ outcomes, o ≠ .moved 0) (hn : 0 < n) (hfit : n ≤ slice.p.length)
    (hslice : slice.len = 0) (h : posixSequentialFileRead filename n outcomes rest slice = some r) :
    r.2 ≠ .ok ∨ ∃ got, rest = got ++ r.1.1.rest ∧ Block.read r.1.2.p 0 r.1.2.len = some got ∧
      r.1.2.len = got.length ∧ r.1.2.p.length = slice.p.length ∧ (got = [] → r.1.1.rest = []) ∧
      (∀ o ∈ r.1.1.outcomes, o ≠ .moved 0) := by
  induction outcomes with
  | nil => cases h
  | cons o outcomes ih =>
    have hothers : ∀ o ∈ outcomes, o ≠ .moved 0 := fun o ho ↦ houtcomes o (List.mem_cons_of_mem _ ho)
    cases o with
    | moved m =>
      right
      have hm : m ≠ 0 := fun h0 ↦ houtcomes _ List.mem_cons_self (by rw [h0])
      have hgot : (rest.take (min m n)).length ≤ n := by
        rw [List.length_take]
        omega
      have hroom : slice.len + (rest.take (min m n)).length ≤ slice.p.length := by omega
      obtain ⟨p, hwrite, hlength, htake⟩ := write_of_le hroom
      rw [posixSequentialFileRead, hwrite, Option.map_some] at h
      obtain rfl := Option.some.inj h
      rw [hslice, Nat.zero_add, List.take_zero, List.nil_append] at htake
      refine ⟨rest.take (min m n), (List.take_append_drop _ _).symm, ?_, by rw [hslice, Nat.zero_add],
        hlength, fun hnil ↦ ?_, hothers⟩
      · simp only [hslice, Nat.zero_add, Block.read]
        rw [if_pos (by rw [hlength]; omega), List.drop_zero, htake]
      · -- nothing was moved though something was asked for
        rw [List.take_eq_nil_iff] at hnil
        obtain h0 | rfl := hnil
        · omega
        · exact List.drop_nil
    | eintr => exact ih hothers h
    | failed errno =>
      left
      rw [posixSequentialFileRead] at h
      obtain rfl := Option.some.inj h
      exact fun hst ↦ IoStatus.noConfusion hst

/-- The loop hands over what it has and then the rest of the file, or nothing at all with an error. -/
theorem envReadLoop_spec {fname : List UInt8} {rounds : ℕ} {k : ReadEnd} {buffer : Slice}
    {result : List UInt8} {st : IoStatus} {data : Option (List UInt8)}
    (houtcomes : ∀ o ∈ k.outcomes, o ≠ .moved 0) (hbuffer : buffer.p.length = kBufferSize)
    (hlen : buffer.len = 0) (h : envReadLoop fname rounds k buffer result = some (st, data)) :
    st = .ok ∧ data = some (result ++ k.rest) ∨ st ≠ .ok ∧ data = none := by
  induction rounds generalizing k buffer result with
  | zero => cases h
  | succ rounds ih =>
    rw [envReadLoop, Option.bind_eq_some_iff] at h
    obtain ⟨r, hread, h⟩ := h
    obtain hst | ⟨got, hrest, hbytes, hgot, hlength, hend, hothers⟩ :=
      posixSequentialFileRead_spec houtcomes (by decide) (by rw [hbuffer]) hlen hread
    · rw [if_pos hst] at h
      obtain ⟨rfl, rfl⟩ := Prod.mk.inj (Option.some.inj h)
      exact Or.inr ⟨hst, rfl⟩
    by_cases hst : r.2 = .ok
    · rw [if_neg (not_not.mpr hst)] at h
      by_cases hnone : r.1.2.len = 0
      · rw [if_pos hnone] at h
        obtain ⟨rfl, rfl⟩ := Prod.mk.inj (Option.some.inj h)
        obtain rfl : got = [] := List.length_eq_zero_iff.mp (hgot.symm.trans hnone)
        exact Or.inl ⟨rfl, by rw [hrest, hend rfl, List.append_nil, List.append_nil]⟩
      · rw [if_neg hnone, hbytes, Option.bind_some, Option.bind_eq_some_iff] at h
        obtain ⟨result', hcat, h⟩ := h
        rw [sdsCatLen] at hcat
        split_ifs at hcat with hsize
        obtain rfl := Option.some.inj hcat
        rw [hrest, ← List.append_assoc]
        exact @ih r.1.1 { r.1.2 with len := 0 } (result ++ got) hothers (hlength.trans hbuffer) rfl h
    · rw [if_pos hst] at h
      obtain ⟨rfl, rfl⟩ := Prod.mk.inj (Option.some.inj h)
      exact Or.inr ⟨hst, rfl⟩

theorem IoOutcome.Good.ne_moved_zero {o : IoOutcome} (h : o.Good) : o ≠ .moved 0 := by
  rintro rfl
  exact absurd h (lt_irrefl 0)

/-- One `read` of a kernel that fails nothing takes one move. -/
theorem posixSequentialFileRead_of_good (filename rest : List UInt8) {n : ℕ} {outcomes : List IoOutcome}
    {slice : Slice} (hgood : ∀ o ∈ outcomes, o.Good) (hmany : 0 < moving outcomes)
    (hfit : n ≤ slice.p.length) (hslice : slice.len = 0) :
    ∃ r, posixSequentialFileRead filename n outcomes rest slice = some r ∧ r.2 = .ok ∧
      (∀ o ∈ r.1.1.outcomes, o.Good) ∧ moving outcomes = moving r.1.1.outcomes + 1 ∧
      r.1.1.outcomes.length < outcomes.length := by
  induction outcomes with
  | nil => exact absurd hmany (lt_irrefl 0)
  | cons o outcomes ih =>
    have hothers : ∀ o ∈ outcomes, o.Good := fun o ho ↦ hgood o (List.mem_cons_of_mem _ ho)
    cases o with
    | moved m =>
      have hroom : slice.len + (rest.take (min m n)).length ≤ slice.p.length := by
        rw [List.length_take]
        omega
      obtain ⟨p, hwrite, -, -⟩ := write_of_le hroom
      rw [posixSequentialFileRead, hwrite, Option.map_some]
      exact ⟨_, rfl, rfl, hothers, rfl, Nat.lt_succ_self _⟩
    | eintr =>
      obtain ⟨r, hr, hok, hrgood, hmoves, hless⟩ := ih hothers hmany
      exact ⟨r, hr, hok, hrgood, hmoves, hless.trans (Nat.lt_succ_self _)⟩
    | failed errno => exact (hgood _ List.mem_cons_self).elim

/-- The loop comes to the end of the file. -/
theorem envReadLoop_of_good {fname : List UInt8} {rounds : ℕ} {k : ReadEnd} {buffer : Slice}
    {result : List UInt8} (hgood : ∀ o ∈ k.outcomes, o.Good) (hmany : k.rest.length < moving k.outcomes)
    (hrounds : k.outcomes.length ≤ rounds) (hbuffer : buffer.p.length = kBufferSize)
    (hlen : buffer.len = 0) (hsize : result.length + k.rest.length < 2 ^ 63) :
    ∃ data, envReadLoop fname rounds k buffer result = some (.ok, data) := by
  induction rounds generalizing k buffer result with
  | zero =>
    have hnone := List.length_eq_zero_iff.mp (Nat.le_zero.mp hrounds)
    rw [hnone] at hmany
    exact absurd hmany (Nat.not_lt_zero _)
  | succ rounds ih =>
    have houtcomes : ∀ o ∈ k.outcomes, o ≠ .moved 0 := fun o ho ↦ (hgood o ho).ne_moved_zero
    obtain ⟨r, hread, hok, hrgood, hmoves, hless⟩ := posixSequentialFileRead_of_good
      fname k.rest hgood (Nat.zero_lt_of_lt hmany) hbuffer.ge hlen
    obtain hst | ⟨got, hrest, hbytes, hgot, hlength, hend, -⟩ :=
      posixSequentialFileRead_spec houtcomes (by decide) hbuffer.ge hlen hread
    · exact absurd hok hst
    rw [envReadLoop, hread, Option.bind_some, if_neg (not_not.mpr hok)]
    by_cases hnone : r.1.2.len = 0
    · exact ⟨_, by rw [if_pos hnone]⟩
    · have hall : k.rest.length = got.length + r.1.1.rest.length := by rw [hrest, List.length_append]
      rw [if_neg hnone, hbytes, Option.bind_some, sdsCatLen, if_pos (by omega), Option.bind_some]
      apply ih hrgood
      · omega
      · omega
      · exact hlength.trans hbuffer
      · rfl
      · rw [List.length_append]
        omega

/-- A write of a whole string with a kernel that fails nothing. -/
theorem envDoWriteSdsToFile_of_good {data block : List UInt8} {outcomes : List IoOutcome}
    (fname : List UInt8) (old : Option (List UInt8)) (fd : ℤ) (removed : Option ℕ) (shouldSync : Bool)
    (hblock : block.length = kWritableFileBufferSize) (hgood : ∀ o ∈ outcomes, o.Good)
    (hmany : data.length ≤ moving outcomes) :
    envDoWriteSdsToFile fname old data block fd shouldSync
      ⟨none, outcomes, ⟨none, none, none⟩, none, removed⟩ = some (some data, .ok) := by
  have hnew := valid_posixWritableFileCreate fname fd hblock
  have hfew : (posixWritableFileCreate fname fd block).pos + data.length ≤ moving outcomes :=
    (Nat.zero_add _).le.trans hmany
  obtain ⟨s₁, happend, hvalid₁, hgood₁, hmoves₁⟩ :=
    posixWriteableFileAppend_of_good (k := ⟨[], outcomes⟩) hnew hgood hfew
  have hfew₁ : s₁.2.pos ≤ moving s₁.1.outcomes := by
    simp only at hmoves₁
    omega
  obtain ⟨s₂, hsync, hvalid₂, hgood₂, hfew₂⟩ : ∃ s₂, envSyncIf shouldSync ⟨none, none, none⟩ (s₁, .ok) =
      some (s₂, .ok) ∧ s₂.2.Valid ∧ (∀ o ∈ s₂.1.outcomes, o.Good) ∧ s₂.2.pos ≤ moving s₂.1.outcomes := by
    cases shouldSync with
    | false => exact ⟨s₁, rfl, hvalid₁, hgood₁, hfew₁⟩
    | true =>
      obtain ⟨s₂, hstep, hvalid₂, hgood₂, hmoves₂⟩ :=
        posixWritableFileStep_of_good (c := .sync ⟨none, none, none⟩) hvalid₁ hgood₁ ⟨rfl, rfl, rfl⟩ hfew₁
      rw [WriterCall.data, List.length_nil] at hmoves₂
      exact ⟨s₂, hstep, hvalid₂, hgood₂, by omega⟩
  obtain ⟨s₃, hclose, -⟩ := posixWritableFileStep_of_good (c := .close none) hvalid₂ hgood₂ rfl hfew₂
  have hrun : ∃ file, envDoWriteSdsToFile fname old data block fd shouldSync
      ⟨none, outcomes, ⟨none, none, none⟩, none, removed⟩ = some (file, .ok) := by
    refine ⟨some s₃.1.written, ?_⟩
    have hclosed : envCloseIf none (s₂, .ok) = some (s₃, .ok) := hclose
    simp only [envDoWriteSdsToFile, happend, hsync, hclosed, Option.bind_some, Option.map_some]
    rfl
  obtain ⟨file, hfile⟩ := hrun
  rw [hfile, (envDoWriteSdsToFile_spec hblock hfile).1 rfl]

/-! ## Written and read back -/

/-- The read of a file by a kernel that fails nothing. -/
theorem envReadFileToSds_of_good {contents : List UInt8} {outcomes : List IoOutcome} (fname : List UInt8)
    (hgood : ∀ o ∈ outcomes, o.Good) (hmany : contents.length < moving outcomes)
    (hsize : contents.length < 2 ^ 63) :
    envReadFileToSds fname none contents outcomes = some (.ok, some contents) := by
  have hlen : ([] : List UInt8).length + contents.length < 2 ^ 63 := (Nat.zero_add _).trans_lt hsize
  obtain ⟨data, hread⟩ : ∃ data, envReadLoop fname outcomes.length ⟨contents, outcomes⟩
      ⟨List.replicate kBufferSize 0, 0⟩ [] = some (.ok, data) :=
    envReadLoop_of_good hgood hmany le_rfl List.length_replicate rfl hlen
  obtain ⟨-, hdata⟩ | hfail :=
    envReadLoop_spec (fun o ho ↦ (hgood o ho).ne_moved_zero) List.length_replicate rfl hread
  · rw [envReadFileToSds, hread, hdata]
    rfl
  · exact absurd rfl hfail.1

/-- **A file that was written reads back as it was.** If the write of a string of fewer than `2 ^ 31` bytes says
that it went well, then a read of that file, in whatever pieces, gives exactly that string or an error and
nothing; and a write that fails behind the `open` leaves no file, where it can be removed. -/
theorem envReadFileToSds_of_envWriteSdsToFileSync {fname data block : List UInt8}
    {old file : Option (List UInt8)} {fd : ℤ} {o : EnvOutcomes} {st : IoStatus}
    (hblock : block.length = kWritableFileBufferSize) (hsize : data.length < 2 ^ 31)
    (hwrite : envWriteSdsToFileSync fname old data block fd o = some (file, st)) :
    (st = .ok → ∃ contents, file = some contents ∧ ∀ opened outcomes st' result,
      (∀ o ∈ outcomes, o ≠ IoOutcome.moved 0) →
      envReadFileToSds fname opened contents outcomes = some (st', result) →
        st' = .ok ∧ result = some data ∨ st' ≠ .ok ∧ result = none) ∧
      (st ≠ .ok → o.removed = none → file = none ∨ file = old) := by
  rw [envWriteSdsToFileSync_of_lt hsize] at hwrite
  obtain ⟨hok, hfailed⟩ := envDoWriteSdsToFile_spec hblock hwrite
  refine ⟨fun hst ↦ ⟨data, hok hst, fun opened outcomes st' result houtcomes hread ↦ ?_⟩, hfailed⟩
  cases opened with
  | some errno =>
    obtain ⟨rfl, rfl⟩ := Prod.mk.inj (Option.some.inj hread)
    exact Or.inr ⟨fun h ↦ IoStatus.noConfusion h, rfl⟩
  | none =>
    rw [envReadFileToSds] at hread
    obtain ⟨rfl, hdata⟩ | hfail := envReadLoop_spec houtcomes List.length_replicate rfl hread
    · exact Or.inl ⟨rfl, hdata⟩
    · exact Or.inr hfail

/-- Three bytes in two pieces. -/
theorem envReadFileToSds_of_envWriteSdsToFileSync_three :
    ∃ contents, some [7, 8, 9] = some contents ∧ ∀ opened outcomes st' result,
      (∀ o ∈ outcomes, o ≠ IoOutcome.moved 0) →
      envReadFileToSds [120] opened contents outcomes = some (st', result) →
        st' = .ok ∧ result = some [7, 8, 9] ∨ st' ≠ .ok ∧ result = none := by
  have hblock : (List.replicate kWritableFileBufferSize (0 : UInt8)).length = kWritableFileBufferSize :=
    List.length_replicate
  have hgood : ∀ o ∈ [IoOutcome.moved 2, .eintr, .moved 1, .moved 1], o.Good := by
    simp [IoOutcome.Good]
  have hmany : [7, 8, (9 : UInt8)].length ≤ moving [IoOutcome.moved 2, .eintr, .moved 1, .moved 1] :=
    Nat.le_refl 3
  have hwrite : envWriteSdsToFileSync [120] none [7, 8, 9] (List.replicate kWritableFileBufferSize 0) 3
      ⟨none, [.moved 2, .eintr, .moved 1, .moved 1], ⟨none, none, none⟩, none, none⟩ =
        some (some [7, 8, 9], .ok) :=
    (envWriteSdsToFileSync_of_lt (by decide) ..).trans
      (envDoWriteSdsToFile_of_good [120] none 3 none true hblock hgood hmany)
  exact (envReadFileToSds_of_envWriteSdsToFileSync hblock (by decide) hwrite).1 rfl

/-- **Both ends get done.** When no call of the kernel fails and it moves bytes often enough, the write of a
string and the read of the file come to their ends, and the read gives the string. -/
theorem envReadFileToSds_roundTrip {fname data block : List UInt8} {old : Option (List UInt8)} {fd : ℤ}
    {writes reads : List IoOutcome} {removed : Option ℕ} (hblock : block.length = kWritableFileBufferSize)
    (hwrites : ∀ o ∈ writes, o.Good) (hmany : data.length ≤ moving writes)
    (hreads : ∀ o ∈ reads, o.Good) (hmore : data.length < moving reads) (hsize : data.length < 2 ^ 31) :
    ∃ contents, envWriteSdsToFileSync fname old data block fd
        ⟨none, writes, ⟨none, none, none⟩, none, removed⟩ = some (some contents, .ok) ∧
      envReadFileToSds fname none contents reads = some (.ok, some data) :=
  ⟨data, (envWriteSdsToFileSync_of_lt hsize ..).trans
      (envDoWriteSdsToFile_of_good fname old fd removed true hblock hwrites hmany),
    envReadFileToSds_of_good fname hreads hmore (hsize.trans (by decide))⟩

/-- Three bytes, read in pieces other than those they were written in. -/
theorem envReadFileToSds_roundTrip_three :
    ∃ contents, envWriteSdsToFileSync [120] none [7, 8, 9] (List.replicate kWritableFileBufferSize 0) 3
        ⟨none, [.moved 1, .moved 1, .eintr, .moved 1], ⟨none, none, none⟩, none, none⟩ =
          some (some contents, .ok) ∧
      envReadFileToSds [120] none contents [.moved 2, .eintr, .moved 9, .moved 1, .moved 1] =
        some (.ok, some [7, 8, 9]) := by
  have hblock : (List.replicate kWritableFileBufferSize (0 : UInt8)).length = kWritableFileBufferSize :=
    List.length_replicate
  have hwrites : ∀ o ∈ [IoOutcome.moved 1, .moved 1, .eintr, .moved 1], o.Good := by
    simp [IoOutcome.Good]
  have hreads : ∀ o ∈ [IoOutcome.moved 2, .eintr, .moved 9, .moved 1, .moved 1], o.Good := by
    simp [IoOutcome.Good]
  exact envReadFileToSds_roundTrip hblock hwrites (Nat.le_refl 3) hreads (Nat.lt_succ_self 3) (by decide)

end LatteC
