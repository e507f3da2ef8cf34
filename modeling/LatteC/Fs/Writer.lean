import LatteC.Fs.PosixFile
import Mathlib.Data.List.Infix

/-!
# Runs of the buffered writer

What the file holds and what the buffer holds make up, one behind the other, the data appended so far. Each
call keeps that, and a run of calls keeps it by induction.

A `write` that fails costs data: the buffer is given up whether or not it could be written
(`posixWritableFileFlushBuffer`). What is left are then pieces of the data in their order, nothing twice.
-/

namespace LatteC

open Block

/-! ## What a `write` loop does -/

section

variable {filename : List UInt8} {outcomes : List IoOutcome} {written data : List UInt8}

theorem writeUnbuffered_nil : writeUnbuffered filename outcomes written [] = some (⟨written, outcomes⟩, .ok) := by
  rw [writeUnbuffered.eq_def]
  cases outcomes <;> rfl

theorem writeUnbuffered_moved (n : ℕ) (hdata : data ≠ []) :
    writeUnbuffered filename (.moved n :: outcomes) written data =
      writeUnbuffered filename outcomes (written ++ data.take n) (data.drop n) :=
  if_neg (mt List.length_eq_zero_iff.mp hdata)

theorem writeUnbuffered_eintr (hdata : data ≠ []) :
    writeUnbuffered filename (.eintr :: outcomes) written data =
      writeUnbuffered filename outcomes written data :=
  if_neg (mt List.length_eq_zero_iff.mp hdata)

theorem writeUnbuffered_failed (errno : ℕ) (hdata : data ≠ []) :
    writeUnbuffered filename (.failed errno :: outcomes) written data =
      some (⟨written, outcomes⟩, .errnoIo errno filename) :=
  if_neg (mt List.length_eq_zero_iff.mp hdata)

/-- A loop that has something to write waits for an outcome. -/
theorem writeUnbuffered_waits (hdata : data ≠ []) : writeUnbuffered filename [] written data = none :=
  if_neg (mt List.length_eq_zero_iff.mp hdata)

/-- The first part of the data gets to the file, and all of it if the loop says so. -/
theorem writeUnbuffered_spec {k : WriteEnd} {st : IoStatus}
    (h : writeUnbuffered filename outcomes written data = some (k, st)) :
    ∃ done rest, data = done ++ rest ∧ k.written = written ++ done ∧ (st = .ok → rest = []) := by
  induction outcomes generalizing written data with
  | nil =>
    by_cases hdata : data = []
    · subst hdata
      rw [writeUnbuffered_nil] at h
      obtain ⟨rfl, rfl⟩ := Prod.mk.inj (Option.some.inj h)
      exact ⟨[], [], rfl, (List.append_nil _).symm, fun _ ↦ rfl⟩
    · rw [writeUnbuffered_waits hdata] at h
      cases h
  | cons o outcomes ih =>
    by_cases hdata : data = []
    · subst hdata
      rw [writeUnbuffered_nil] at h
      obtain ⟨rfl, rfl⟩ := Prod.mk.inj (Option.some.inj h)
      exact ⟨[], [], rfl, (List.append_nil _).symm, fun _ ↦ rfl⟩
    cases o with
    | moved n =>
      rw [writeUnbuffered_moved n hdata] at h
      obtain ⟨done, rest, hsplit, hwritten, hok⟩ := ih h
      refine ⟨data.take n ++ done, rest, ?_, ?_, hok⟩
      · rw [List.append_assoc, ← hsplit, List.take_append_drop]
      · rw [hwritten, List.append_assoc]
    | eintr =>
      rw [writeUnbuffered_eintr hdata] at h
      exact ih h
    | failed errno =>
      rw [writeUnbuffered_failed errno hdata] at h
      obtain ⟨rfl, rfl⟩ := Prod.mk.inj (Option.some.inj h)
      exact ⟨[], data, rfl, (List.append_nil _).symm, fun hst ↦ IoStatus.noConfusion hst⟩

end

/-- How many of the outcomes move bytes. -/
def moving (outcomes : List IoOutcome) : ℕ := (outcomes.filter IoOutcome.moves).length

/-- A kernel that fails no call and moves bytes often enough takes all of the data, and each `write` that
moves something takes one byte at least. -/
theorem writeUnbuffered_of_good (filename written : List UInt8) {outcomes : List IoOutcome}
    {data : List UInt8} (hgood : ∀ o ∈ outcomes, o.Good) (hmany : data.length ≤ moving outcomes) :
    ∃ k, writeUnbuffered filename outcomes written data = some (k, .ok) ∧ (∀ o ∈ k.outcomes, o.Good) ∧
      moving outcomes ≤ moving k.outcomes + data.length := by
  induction outcomes generalizing written data with
  | nil =>
    obtain rfl := List.length_eq_zero_iff.mp (Nat.le_zero.mp hmany)
    exact ⟨⟨written, []⟩, writeUnbuffered_nil, hgood, Nat.le_add_right _ _⟩
  | cons o outcomes ih =>
    by_cases hdata : data = []
    · subst hdata
      exact ⟨⟨written, o :: outcomes⟩, writeUnbuffered_nil, hgood, Nat.le_add_right _ _⟩
    have hrest : ∀ o ∈ outcomes, o.Good := fun o ho ↦ hgood o (List.mem_cons_of_mem _ ho)
    cases o with
    | moved n =>
      have hn : 0 < n := hgood _ List.mem_cons_self
      have hpos := List.length_pos_of_ne_nil hdata
      have hcons : moving (.moved n :: outcomes) = moving outcomes + 1 := rfl
      rw [writeUnbuffered_moved n hdata]
      have hless : (data.drop n).length ≤ moving outcomes := by
        rw [List.length_drop]
        omega
      obtain ⟨k, hk, hkgood, hle⟩ := ih (written ++ data.take n) hrest hless
      refine ⟨k, hk, hkgood, ?_⟩
      rw [List.length_drop] at hle
      omega
    | eintr =>
      rw [writeUnbuffered_eintr hdata]
      exact ih written hrest hmany
    | failed errno => exact (hgood _ List.mem_cons_self).elim

/-! ## What the writer holds -/

/-- What the file will hold when the buffer is written. -/
def contents (s : WriteEnd × PosixWritableFile) : List UInt8 := s.1.written ++ s.2.buffer.take s.2.pos

/-- The buffer has its size, and `pos` does not leave it. -/
structure PosixWritableFile.Valid (writer : PosixWritableFile) : Prop where
  length_buffer : writer.buffer.length = kWritableFileBufferSize
  pos_le : writer.pos ≤ kWritableFileBufferSize

theorem PosixWritableFile.Valid.bufferRoom_eq {writer : PosixWritableFile} (h : writer.Valid) :
    bufferRoom writer = kWritableFileBufferSize - writer.pos := by
  have hpos := h.pos_le
  simp only [bufferRoom, kWritableFileBufferSize] at hpos ⊢
  omega

theorem valid_posixWritableFileCreate (filename : List UInt8) (fd : ℤ) {block : List UInt8}
    (hblock : block.length = kWritableFileBufferSize) :
    (posixWritableFileCreate filename fd block).Valid :=
  ⟨by rw [posixWritableFileCreate, List.length_set, hblock], Nat.zero_le _⟩

theorem contents_posixWritableFileCreate (k : WriteEnd) (filename : List UInt8) (fd : ℤ)
    (block : List UInt8) : contents (k, posixWritableFileCreate filename fd block) = k.written :=
  List.append_nil _

/-- Emptied, the buffer is still a buffer. -/
theorem PosixWritableFile.Valid.emptied {writer : PosixWritableFile} (h : writer.Valid) :
    PosixWritableFile.Valid { writer with pos := 0 } := ⟨h.length_buffer, Nat.zero_le _⟩

theorem PosixWritableFile.Valid.read_buffer {writer : PosixWritableFile} (h : writer.Valid) :
    read writer.buffer 0 writer.pos = some (writer.buffer.take writer.pos) := by
  have hpos := h.pos_le
  rw [Block.read, if_pos (by rw [h.length_buffer]; omega), List.drop_zero]

/-- `posixWritableFileFlushBuffer`, in terms of the `write` loop. -/
theorem posixWritableFileFlushBuffer_eq {k : WriteEnd} {writer : PosixWritableFile} (h : writer.Valid) :
    posixWritableFileFlushBuffer k writer =
      (writeUnbuffered writer.filename k.outcomes k.written (writer.buffer.take writer.pos)).map fun r ↦
        ((r.1, { writer with pos := 0 }), r.2) := by
  rw [posixWritableFileFlushBuffer, h.read_buffer, Option.bind_some]

/-- A flush leaves an empty buffer, and in the file a first part of what was to come. -/
theorem posixWritableFileFlushBuffer_spec {k : WriteEnd} {writer : PosixWritableFile} (h : writer.Valid)
    {s' : WriteEnd × PosixWritableFile} {st : IoStatus}
    (hf : posixWritableFileFlushBuffer k writer = some (s', st)) :
    s'.2 = { writer with pos := 0 } ∧ (∃ rest, contents s' ++ rest = contents (k, writer)) ∧
      (st = .ok → s'.1.written = contents (k, writer)) := by
  rw [posixWritableFileFlushBuffer_eq h, Option.map_eq_some_iff] at hf
  obtain ⟨⟨k', st'⟩, hw, heq⟩ := hf
  obtain ⟨rfl, rfl⟩ := Prod.mk.inj heq
  obtain ⟨done, rest, hsplit, hwritten, hok⟩ := writeUnbuffered_spec hw
  refine ⟨rfl, ⟨rest, ?_⟩, fun hst ↦ ?_⟩
  · simp only [contents, List.take_zero, List.append_nil, hwritten, List.append_assoc, hsplit]
  · simp only [contents, hwritten, hsplit, hok hst, List.append_nil]

/-- Bytes that fit are stored behind what the buffer holds. -/
theorem PosixWritableFile.Valid.fill {writer : PosixWritableFile} (h : writer.Valid) (k : WriteEnd)
    (xs : List UInt8) (hfit : writer.pos + xs.length ≤ kWritableFileBufferSize) :
    ∃ buffer, write writer.buffer writer.pos xs = some buffer ∧
      PosixWritableFile.Valid { writer with pos := writer.pos + xs.length, buffer := buffer } ∧
      contents (k, { writer with pos := writer.pos + xs.length, buffer := buffer }) =
        contents (k, writer) ++ xs := by
  have hroom : writer.pos + xs.length ≤ writer.buffer.length := by rw [h.length_buffer]; exact hfit
  obtain ⟨buffer, hwrite, hlength, htake⟩ := write_of_le hroom
  refine ⟨buffer, hwrite, ⟨by rw [← h.length_buffer, ← hlength], hfit⟩, ?_⟩
  simp only [contents, htake, List.append_assoc]

/-- How much of the data an append puts into the buffer first. -/
theorem PosixWritableFile.Valid.copySize_eq {writer : PosixWritableFile} (h : writer.Valid)
    (data : List UInt8) :
    (if data.length < bufferRoom writer then data.length else bufferRoom writer) =
      min data.length (kWritableFileBufferSize - writer.pos) := by
  rw [h.bufferRoom_eq]
  split_ifs <;> omega

/-- **One append.** The buffer stays a buffer. What the file and the buffer hold are what they held and then
the data, if the append says that it went well, and pieces of that, in their order, in any case. -/
theorem posixWriteableFileAppend_spec {k : WriteEnd} {writer : PosixWritableFile} (h : writer.Valid)
    {data : List UInt8} {s' : WriteEnd × PosixWritableFile} {st : IoStatus}
    (ha : posixWriteableFileAppend k writer data = some (s', st)) :
    s'.2.Valid ∧ (contents s').Sublist (contents (k, writer) ++ data) ∧
      (st = .ok → contents s' = contents (k, writer) ++ data) := by
  obtain ⟨c, hc⟩ : ∃ c, min data.length (kWritableFileBufferSize - writer.pos) = c := ⟨_, rfl⟩
  have hlen : (data.take c).length = c := by
    rw [List.length_take]
    omega
  have hpos := h.pos_le
  obtain ⟨buffer, hwrite, hvalid, hcontents⟩ := h.fill k (data.take c) (by rw [hlen]; omega)
  rw [hlen] at hvalid hcontents
  simp only [posixWriteableFileAppend, h.copySize_eq, hc, hwrite, Option.bind_some] at ha
  have hdata := List.take_append_drop c data
  by_cases hrest : (data.drop c).length = 0
  · -- the data fits
    rw [if_pos hrest] at ha
    obtain ⟨rfl, rfl⟩ := Prod.mk.inj (Option.some.inj ha)
    have heq : contents (k, { writer with pos := writer.pos + c, buffer := buffer }) =
        contents (k, writer) ++ data := by
      rw [hcontents, List.take_of_length_le (by rw [List.length_drop] at hrest; omega)]
    exact ⟨hvalid, heq ▸ List.Sublist.refl _, fun _ ↦ heq⟩
  · rw [if_neg hrest, Option.bind_eq_some_iff] at ha
    obtain ⟨⟨⟨k₁, writer₁⟩, st₁⟩, hflush, ha⟩ := ha
    obtain ⟨hwriter, ⟨rest, hpart⟩, hok⟩ := posixWritableFileFlushBuffer_spec hvalid hflush
    simp only at hwriter hok
    subst hwriter
    have hall : contents (k, writer) ++ data =
        contents (k, { writer with pos := writer.pos + c, buffer := buffer }) ++ data.drop c := by
      rw [hcontents, List.append_assoc, hdata]
    split_ifs at ha with hst hsmall
    · -- the flush failed, and the rest of the data is not looked at
      obtain ⟨rfl, rfl⟩ := Prod.mk.inj (Option.some.inj ha)
      refine ⟨hvalid.emptied, ?_, fun h ↦ absurd h hst⟩
      rw [hall, ← hpart, List.append_assoc]
      exact List.sublist_append_left _ _
    · -- the rest goes into the empty buffer
      have hflushed := hok (not_not.mp hst)
      obtain ⟨buffer', hwrite', hvalid', hcontents'⟩ :=
        hvalid.emptied.fill k₁ (data.drop c) (by rw [Nat.zero_add]; exact hsmall.le)
      simp only [Nat.zero_add] at hwrite' hvalid' hcontents'
      rw [hwrite', Option.map_some] at ha
      obtain ⟨rfl, rfl⟩ := Prod.mk.inj (Option.some.inj ha)
      have heq := hcontents'.trans (congrArg (· ++ data.drop c) ((List.append_nil _).trans hflushed))
      rw [← hall] at heq
      exact ⟨hvalid', heq ▸ List.Sublist.refl _, fun _ ↦ heq⟩
    · -- the rest goes to the file
      have hflushed := hok (not_not.mp hst)
      rw [Option.map_eq_some_iff] at ha
      obtain ⟨⟨k₂, st₂⟩, hw, heq⟩ := ha
      obtain ⟨rfl, rfl⟩ := Prod.mk.inj heq
      obtain ⟨done, rest₂, hsplit, hwritten, hok₂⟩ := writeUnbuffered_spec hw
      have hnow : contents (k₂, { writer with pos := 0, buffer := buffer }) =
          contents (k, { writer with pos := writer.pos + c, buffer := buffer }) ++ done := by
        rw [contents, List.take_zero, List.append_nil, hwritten, hflushed]
      refine ⟨hvalid.emptied, ?_, fun hst₂ ↦ ?_⟩
      · rw [hall, hnow, hsplit, ← List.append_assoc]
        exact List.sublist_append_left _ _
      · rw [hall, hnow, hsplit, hok₂ hst₂, List.append_nil]

/-! ## Runs -/

/-- What a call appends. -/
def WriterCall.data : WriterCall → List UInt8
  | .append data => data
  | .flush => []
  | .sync _ => []
  | .close _ => []

/-- A call that is to leave nothing in the buffer. -/
def WriterCall.writesOut : WriterCall → Bool
  | .append _ => false
  | .flush => true
  | .sync _ => true
  | .close _ => true

/-- What a step does for the file and the buffer together. -/
structure Kept (s s' : WriteEnd × PosixWritableFile) (data : List UInt8) (st : IoStatus) : Prop where
  valid : s'.2.Valid
  sublist : (contents s').Sublist (contents s ++ data)
  eq_of_ok : st = .ok → contents s' = contents s ++ data

/-- A flush keeps what there is, in the file from now on. -/
theorem kept_of_flush {k : WriteEnd} {writer : PosixWritableFile} (h : writer.Valid)
    {s' : WriteEnd × PosixWritableFile} {st : IoStatus}
    (hf : posixWritableFileFlushBuffer k writer = some (s', st)) :
    Kept (k, writer) s' [] st ∧ s'.2.pos = 0 := by
  obtain ⟨hwriter, ⟨rest, hpart⟩, hok⟩ := posixWritableFileFlushBuffer_spec h hf
  have hpos : s'.2.pos = 0 := by rw [hwriter]
  refine ⟨⟨hwriter ▸ h.emptied, ?_, fun hst ↦ ?_⟩, hpos⟩
  · rw [List.append_nil, ← hpart]
    exact List.sublist_append_left _ _
  · rw [contents, hpos, List.take_zero, List.append_nil, List.append_nil]
    exact hok hst

/-- **One call.** -/
theorem posixWritableFileStep_spec {s s' : WriteEnd × PosixWritableFile} {c : WriterCall} {st : IoStatus}
    (h : s.2.Valid) (hs : posixWritableFileStep s c = some (s', st)) :
    Kept s s' c.data st ∧ (c.writesOut = true → st = .ok → s'.2.pos = 0) := by
  cases c with
  | append data =>
    obtain ⟨hvalid, hsub, hok⟩ := posixWriteableFileAppend_spec h hs
    exact ⟨⟨hvalid, hsub, hok⟩, fun hw ↦ Bool.noConfusion hw⟩
  | flush =>
    obtain ⟨hkept, hpos⟩ := kept_of_flush h hs
    exact ⟨hkept, fun _ _ ↦ hpos⟩
  | sync o =>
    simp only [posixWritableFileStep, posixWritableFileSync] at hs
    split_ifs at hs with herror
    · obtain ⟨rfl, rfl⟩ := Prod.mk.inj (Option.some.inj hs)
      have heq : contents s = contents s ++ [] := (List.append_nil _).symm
      exact ⟨⟨h, heq ▸ List.Sublist.refl _, fun _ ↦ heq⟩, fun _ hst ↦ absurd hst herror⟩
    · rw [Option.map_eq_some_iff] at hs
      obtain ⟨⟨s₁, st₁⟩, hflush, heq⟩ := hs
      obtain ⟨hkept, hpos⟩ := kept_of_flush h hflush
      split_ifs at heq with hst₁
      · obtain ⟨rfl, rfl⟩ := Prod.mk.inj heq
        exact ⟨hkept, fun _ _ ↦ hpos⟩
      · obtain ⟨rfl, rfl⟩ := Prod.mk.inj heq
        exact ⟨⟨hkept.valid, hkept.sublist, fun _ ↦ hkept.eq_of_ok (not_not.mp hst₁)⟩, fun _ _ ↦ hpos⟩
  | close closed =>
    simp only [posixWritableFileStep, posixWritableFileClose, Option.map_eq_some_iff] at hs
    obtain ⟨⟨s₁, st₁⟩, hflush, heq⟩ := hs
    obtain ⟨hkept, hpos⟩ := kept_of_flush h hflush
    obtain ⟨rfl, rfl⟩ := Prod.mk.inj heq
    have hvalid := hkept.valid
    refine ⟨⟨⟨hvalid.length_buffer, hvalid.pos_le⟩, hkept.sublist, fun hst ↦ hkept.eq_of_ok ?_⟩, fun _ _ ↦ hpos⟩
    -- a `close` that fails does not hide that the flush did
    cases closed with
    | none => exact hst
    | some errno =>
      simp only at hst
      split_ifs at hst with hst₁
      exact hst

/-- **A run of calls.** -/
theorem kept_of_run {calls : List WriterCall} {s s' : WriteEnd × PosixWritableFile}
    {statuses : List IoStatus} (h : s.2.Valid)
    (hrun : CallMachine.run posixWritableFileStep s calls = some (s', statuses)) :
    s'.2.Valid ∧ (contents s').Sublist (contents s ++ calls.flatMap WriterCall.data) ∧
      ((∀ st ∈ statuses, st = .ok) → contents s' = contents s ++ calls.flatMap WriterCall.data ∧
        ∀ c, calls.getLast? = some c → c.writesOut = true → s'.2.pos = 0) := by
  induction calls generalizing s statuses with
  | nil =>
    obtain ⟨rfl, rfl⟩ := Prod.mk.inj (Option.some.inj hrun)
    rw [List.flatMap_nil, List.append_nil]
    exact ⟨h, List.Sublist.refl _, fun _ ↦ ⟨rfl, fun c hc ↦ by cases hc⟩⟩
  | cons c calls ih =>
    obtain ⟨s₁, st, statuses', hstep, hrest, rfl⟩ := CallMachine.run_cons_eq_some hrun
    obtain ⟨hkept, hempty⟩ := posixWritableFileStep_spec h hstep
    obtain ⟨hvalid, hsub, hok⟩ := ih hkept.valid hrest
    rw [List.flatMap_cons, ← List.append_assoc]
    refine ⟨hvalid, hsub.trans (hkept.sublist.append_right _), fun hall ↦ ?_⟩
    have hst : st = .ok := hall st List.mem_cons_self
    obtain ⟨heq, hlast⟩ := hok fun st' hst' ↦ hall st' (List.mem_cons_of_mem _ hst')
    refine ⟨by rw [heq, hkept.eq_of_ok hst], fun c' hc' hw ↦ ?_⟩
    cases calls with
    | nil =>
      obtain rfl := Option.some.inj hc'
      obtain ⟨rfl, -⟩ := Prod.mk.inj (Option.some.inj hrest)
      exact hempty hw hst
    | cons c₂ calls => exact hlast c' (by rw [List.getLast?_cons_cons] at hc'; exact hc') hw

/-! ## Runs that end -/

/-- Nothing but `write` can make the call wait or fail. -/
def WriterCall.Good : WriterCall → Prop
  | .append _ => True
  | .flush => True
  | .sync o => o.opened = none ∧ o.dirSynced = none ∧ o.synced = none
  | .close closed => closed = none

/-- A call that goes well takes no more of the moves to come than it writes bytes. -/
structure Served (s s' : WriteEnd × PosixWritableFile) (data : List UInt8) : Prop where
  valid : s'.2.Valid
  good : ∀ o ∈ s'.1.outcomes, o.Good
  moves : moving s.1.outcomes + s'.2.pos ≤ moving s'.1.outcomes + (s.2.pos + data.length)

theorem posixWritableFileFlushBuffer_of_good {k : WriteEnd} {writer : PosixWritableFile}
    (h : writer.Valid) (hgood : ∀ o ∈ k.outcomes, o.Good) (hmany : writer.pos ≤ moving k.outcomes) :
    ∃ k', posixWritableFileFlushBuffer k writer = some ((k', { writer with pos := 0 }), .ok) ∧
      Served (k, writer) (k', { writer with pos := 0 }) [] := by
  have hlen : (writer.buffer.take writer.pos).length = writer.pos := by
    rw [List.length_take, h.length_buffer, Nat.min_eq_left h.pos_le]
  obtain ⟨k', hw, hgood', hle⟩ := writeUnbuffered_of_good writer.filename k.written hgood
    (hlen.le.trans hmany)
  rw [hlen] at hle
  exact ⟨k', by rw [posixWritableFileFlushBuffer_eq h, hw, Option.map_some], h.emptied, hgood', hle⟩

theorem posixWriteableFileAppend_of_good {k : WriteEnd} {writer : PosixWritableFile} (h : writer.Valid)
    (hgood : ∀ o ∈ k.outcomes, o.Good) {data : List UInt8}
    (hmany : writer.pos + data.length ≤ moving k.outcomes) :
    ∃ s', posixWriteableFileAppend k writer data = some (s', .ok) ∧ Served (k, writer) s' data := by
  obtain ⟨c, hc⟩ : ∃ c, min data.length (kWritableFileBufferSize - writer.pos) = c := ⟨_, rfl⟩
  have hlen : (data.take c).length = c := by
    rw [List.length_take]
    omega
  have hrestlen : (data.drop c).length = data.length - c := List.length_drop
  have hpos := h.pos_le
  obtain ⟨buffer, hwrite, hvalid, -⟩ := h.fill k (data.take c) (by rw [hlen]; omega)
  rw [hlen] at hvalid
  simp only [posixWriteableFileAppend, h.copySize_eq, hc, hwrite, Option.bind_some]
  by_cases hrest : (data.drop c).length = 0
  · rw [if_pos hrest]
    refine ⟨_, rfl, hvalid, hgood, ?_⟩
    simp only
    omega
  rw [if_neg hrest]
  obtain ⟨k₁, hflush, hvalid₁, hgood₁, hmoves₁⟩ :=
    posixWritableFileFlushBuffer_of_good hvalid hgood (by simp only; omega)
  have hgoodNow : ∀ o ∈ k₁.outcomes, o.Good := hgood₁
  simp only [List.length_nil] at hmoves₁
  rw [hflush, Option.bind_some, if_neg (not_not.mpr rfl)]
  by_cases hsmall : (data.drop c).length < kWritableFileBufferSize
  · obtain ⟨buffer', hwrite', hvalid', -⟩ :=
      hvalid₁.fill k₁ (data.drop c) (by rw [Nat.zero_add]; exact hsmall.le)
    simp only [Nat.zero_add] at hwrite' hvalid'
    rw [if_pos hsmall, hwrite', Option.map_some]
    refine ⟨_, rfl, hvalid', hgood₁, ?_⟩
    simp only
    omega
  · have hmore : (data.drop c).length ≤ moving k₁.outcomes := by omega
    obtain ⟨k₂, hw, hgood₂, hle⟩ := writeUnbuffered_of_good writer.filename k₁.written hgoodNow hmore
    rw [if_neg hsmall, hw, Option.map_some]
    refine ⟨_, rfl, hvalid₁, hgood₂, ?_⟩
    simp only
    omega

/-- **One call of a kernel that fails nothing** is served. -/
theorem posixWritableFileStep_of_good {s : WriteEnd × PosixWritableFile} {c : WriterCall}
    (h : s.2.Valid) (hgood : ∀ o ∈ s.1.outcomes, o.Good) (hc : c.Good)
    (hmany : s.2.pos + c.data.length ≤ moving s.1.outcomes) :
    ∃ s', posixWritableFileStep s c = some (s', .ok) ∧ Served s s' c.data := by
  cases c with
  | append data => exact posixWriteableFileAppend_of_good h hgood hmany
  | flush =>
    obtain ⟨k', hflush, hserved⟩ := posixWritableFileFlushBuffer_of_good h hgood hmany
    exact ⟨_, hflush, hserved⟩
  | sync o =>
    obtain ⟨hopened, hdir, hsynced⟩ := hc
    obtain ⟨k', hflush, hserved⟩ := posixWritableFileFlushBuffer_of_good h hgood hmany
    have hnone : posixWritableFileSyncDirIfManifest s.2 o = .ok := by
      rw [posixWritableFileSyncDirIfManifest, hopened, hdir]
      exact ite_self _
    refine ⟨_, ?_, hserved⟩
    simp only [posixWritableFileStep, posixWritableFileSync, hnone, hflush, hsynced, ne_eq, not_true,
      if_false, Option.map_some, posixWritableFileSyncFd]
  | close closed =>
    obtain ⟨k', hflush, hserved⟩ := posixWritableFileFlushBuffer_of_good h hgood hmany
    obtain rfl : closed = none := hc
    exact ⟨(k', { s.2 with fd := -1, pos := 0 }),
      by simp only [posixWritableFileStep, posixWritableFileClose, hflush, Option.map_some],
      ⟨hserved.valid.length_buffer, hserved.valid.pos_le⟩, hserved.good, hserved.moves⟩

/-- **A run of calls that are served.** -/
theorem run_of_good {calls : List WriterCall} {s : WriteEnd × PosixWritableFile} (h : s.2.Valid)
    (hgood : ∀ o ∈ s.1.outcomes, o.Good) (hcalls : ∀ c ∈ calls, c.Good)
    (hmany : s.2.pos + (calls.flatMap WriterCall.data).length ≤ moving s.1.outcomes) :
    ∃ s', CallMachine.run posixWritableFileStep s calls = some (s', calls.map fun _ ↦ .ok) := by
  induction calls generalizing s with
  | nil => exact ⟨s, rfl⟩
  | cons c calls ih =>
    rw [List.flatMap_cons, List.length_append] at hmany
    obtain ⟨s₁, hstep, hvalid, hgood₁, hmoves⟩ :=
      posixWritableFileStep_of_good h hgood (hcalls c List.mem_cons_self) (by omega)
    obtain ⟨s', hrun⟩ :=
      ih hvalid hgood₁ (fun c hc ↦ hcalls c (List.mem_cons_of_mem _ hc)) (by omega)
    exact ⟨s', by rw [CallMachine.run_cons_of_step hstep, hrun]; rfl⟩

/-! ## From a new file -/

/-- **The writer loses nothing and doubles nothing.** Whatever `write` does, failures included, the file and
then the buffer hold pieces of the appended data in their order. As long as no call reports an error they hold
all of it, and behind a flush, a sync or a close the file alone does. -/
theorem posixWritableFile_run {filename block : List UInt8} {fd : ℤ} {outcomes : List IoOutcome}
    {calls : List WriterCall} {s' : WriteEnd × PosixWritableFile} {statuses : List IoStatus}
    (hblock : block.length = kWritableFileBufferSize)
    (hrun : CallMachine.run posixWritableFileStep
      (⟨[], outcomes⟩, posixWritableFileCreate filename fd block) calls = some (s', statuses)) :
    s'.2.pos ≤ kWritableFileBufferSize ∧
      (s'.1.written ++ s'.2.buffer.take s'.2.pos).Sublist (calls.flatMap WriterCall.data) ∧
      ((∀ st ∈ statuses, st = .ok) →
        s'.1.written ++ s'.2.buffer.take s'.2.pos = calls.flatMap WriterCall.data ∧
        ∀ c, calls.getLast? = some c → c.writesOut = true →
          s'.1.written = calls.flatMap WriterCall.data) := by
  obtain ⟨hvalid, hsub, hok⟩ := kept_of_run (valid_posixWritableFileCreate filename fd hblock) hrun
  rw [contents_posixWritableFileCreate, List.nil_append] at hsub hok
  refine ⟨hvalid.pos_le, hsub, fun hall ↦ ⟨(hok hall).1, fun c hc hw ↦ ?_⟩⟩
  obtain ⟨heq, hlast⟩ := hok hall
  rw [← heq, contents, hlast c hc hw, List.take_zero, List.append_nil]

/-- Two bytes, one at a time, with a signal in between. -/
theorem posixWritableFile_run_two :
    ∃ s' statuses, CallMachine.run posixWritableFileStep
        (⟨[], [.moved 1, .eintr, .moved 1]⟩,
          posixWritableFileCreate [120] 3 (List.replicate kWritableFileBufferSize 0))
        [.append [7, 8], .flush] = some (s', statuses) ∧
      s'.2.pos ≤ kWritableFileBufferSize ∧
      (s'.1.written ++ s'.2.buffer.take s'.2.pos).Sublist [7, 8] ∧
      ((∀ st ∈ statuses, st = .ok) → s'.1.written ++ s'.2.buffer.take s'.2.pos = [7, 8] ∧
        ∀ c, [WriterCall.append [7, 8], .flush].getLast? = some c → c.writesOut = true →
          s'.1.written = [7, 8]) := by
  have hblock : (List.replicate kWritableFileBufferSize (0 : UInt8)).length = kWritableFileBufferSize :=
    List.length_replicate
  have hgood : ∀ o ∈ [IoOutcome.moved 1, .eintr, .moved 1], o.Good := by
    simp [IoOutcome.Good]
  have hcalls : ∀ c ∈ [WriterCall.append [7, 8], .flush], c.Good := by
    simp [WriterCall.Good]
  obtain ⟨s', hrun⟩ := run_of_good (valid_posixWritableFileCreate [120] 3 hblock)
    (s := (⟨[], [.moved 1, .eintr, .moved 1]⟩, _)) hgood hcalls (Nat.le_refl 2)
  exact ⟨s', _, hrun, posixWritableFile_run hblock hrun⟩

/-- **The writer gets done.** With a kernel that fails no call and is not always interrupted, every sequence of
calls comes to its end, within the buffer, and each call reports that it went well. -/
theorem posixWritableFile_ends {filename block : List UInt8} {fd : ℤ} {outcomes : List IoOutcome}
    {calls : List WriterCall} (hblock : block.length = kWritableFileBufferSize)
    (hgood : ∀ o ∈ outcomes, o.Good) (hcalls : ∀ c ∈ calls, c.Good)
    (hmany : (calls.flatMap WriterCall.data).length ≤ moving outcomes) :
    ∃ s', CallMachine.run posixWritableFileStep
        (⟨[], outcomes⟩, posixWritableFileCreate filename fd block) calls =
          some (s', calls.map fun _ ↦ .ok) ∧
      s'.1.written ++ s'.2.buffer.take s'.2.pos = calls.flatMap WriterCall.data := by
  have hvalid := valid_posixWritableFileCreate filename fd hblock
  have hfew : 0 + (calls.flatMap WriterCall.data).length ≤ moving outcomes := by
    rw [Nat.zero_add]
    exact hmany
  obtain ⟨s', hrun⟩ := run_of_good
    (s := (⟨[], outcomes⟩, posixWritableFileCreate filename fd block)) hvalid hgood hcalls hfew
  obtain ⟨-, -, hok⟩ := kept_of_run hvalid hrun
  have hall : ∀ st ∈ calls.map fun _ ↦ IoStatus.ok, st = .ok := fun st hst ↦ by
    obtain ⟨-, -, rfl⟩ := List.mem_map.mp hst
    rfl
  exact ⟨s', hrun, by rw [← contents, (hok hall).1, contents_posixWritableFileCreate, List.nil_append]⟩

/-- Three bytes that the kernel takes one at a time, and a sync. -/
theorem posixWritableFile_ends_three :
    ∃ s', CallMachine.run posixWritableFileStep
        (⟨[], [.moved 1, .eintr, .moved 1, .moved 5]⟩,
          posixWritableFileCreate [120] 3 (List.replicate kWritableFileBufferSize 0))
        [.append [7], .append [8, 9], .sync ⟨none, none, none⟩] = some (s', [.ok, .ok, .ok]) ∧
      s'.1.written ++ s'.2.buffer.take s'.2.pos = [7, 8, 9] := by
  have hblock : (List.replicate kWritableFileBufferSize (0 : UInt8)).length = kWritableFileBufferSize :=
    List.length_replicate
  have hgood : ∀ o ∈ [IoOutcome.moved 1, .eintr, .moved 1, .moved 5], o.Good := by
    simp [IoOutcome.Good]
  have hcalls : ∀ c ∈ [WriterCall.append [7], .append [8, 9], .sync ⟨none, none, none⟩], c.Good := by
    simp [WriterCall.Good]
  exact posixWritableFile_ends hblock hgood hcalls (Nat.le_refl 3)

end LatteC
