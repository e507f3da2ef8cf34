import LatteC.Sds.Refinement

/-!
# Cutting a string to a range

`sdssubstr` and `sds_range` of `src/sds/sds.c`, on the bytes of the allocation. An index may be negative and
then counts from the end; the last one is part of the range. Sums of a `size_t` and a `ssize_t` are of
type `size_t` and are converted back.

No call that works in place changes the size of the block, and one that needs another block has it from
the allocator. So a bound on the blocks of the allocator is one on the strings.
-/

namespace LatteC

open Block

namespace Sds

/-- `if (n) memmove(s, s+src, n)`. -/
def moveToFront (s : Sds) (src n : ℕ) : SdsResult Sds :=
  if n = 0 then .ok s
  else do
    let xs ← orFault (Block.read s.block (s.pos + src) n)
    s.store 0 xs

/-- `sdssubstr`. -/
def substr (s : Sds) (start len : ℕ) : SdsResult Sds := do
  let oldlen ← s.len
  -- clamp out of range input
  let len := if oldlen ≤ start then 0 else len
  let start := if oldlen ≤ start then 0 else start
  let len := if oldlen - start < len then oldlen - start else len
  let s ← s.moveToFront start len
  let s ← s.store len [0]
  s.setLen len

/-- `sds_range(s, start, end)`. -/
def range (s : Sds) (start stop : ℤ) : SdsResult Sds := do
  let len ← s.len
  if len = 0 then .ok s
  else
    let start := if start < 0 then ((len : ℤ) + start).bmod (2 ^ 64) else start
    let stop := if stop < 0 then ((len : ℤ) + stop).bmod (2 ^ 64) else stop
    let newlen := if stop < start then 0 else ((stop - start + 1) % 2 ^ 64).toNat
    s.substr (start % 2 ^ 64).toNat newlen

section Cut

variable {s : Sds} {b : List UInt8}

theorem Holds.len_eq (h : Holds s b) : s.len = .ok b.length := by
  obtain ⟨t, alloc, buf, rfl, hfits, -⟩ := h
  exact len_rep hfits.len_max

end Cut

/-! ## The size of the block -/

section Size

variable {M : Zmalloc} {s s' : Sds}

theorem length_of_write {b b' : List UInt8} {off : ℕ} {xs : List UInt8} (h : Block.write b off xs = some b') :
    b'.length = b.length := by
  rw [Block.write] at h
  split_ifs at h with hfit
  rw [← Option.some.inj h]
  simp only [List.length_append, List.length_take, List.length_drop]
  omega

/-- Bytes are stored in the block of the string. -/
theorem length_of_written {off : ℕ} {xs : List UInt8}
    (h : (orFault (Block.write s.block off xs)).map (fun b ↦ { s with block := b }) = .ok s') :
    s'.block.length = s.block.length := by
  cases hwrite : Block.write s.block off xs with
  | none =>
    rw [hwrite] at h
    cases h
  | some b =>
    rw [hwrite] at h
    cases h
    exact length_of_write hwrite

theorem length_of_store {i : ℕ} {xs : List UInt8} (h : s.store i xs = .ok s') :
    s'.block.length = s.block.length :=
  length_of_written h

end Size

end Sds

end LatteC
