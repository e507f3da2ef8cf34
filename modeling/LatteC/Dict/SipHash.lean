import Mathlib.Data.UInt

/-!
# SipHash

`src/dict/siphash.c`: the hash function behind `dict_gen_hash_function`, with one round for each
word of input and two at the end, on a little endian machine. `dict_hash_function_seed` is
a parameter; it is all zero unless `dict_set_hash_function_seed` is called.
-/

namespace LatteC

/-- `ROTL`. -/
def rotl (x : UInt64) (b : UInt64) : UInt64 := (x <<< b) ||| (x >>> (64 - b))

/-- The bytes of a word, the lowest first: `U8TO64_LE`. -/
def u8to64le (p : List UInt8) : UInt64 :=
  p.foldr (fun byte acc ↦ (acc <<< 8) ||| byte.toUInt64) 0

/-- The four words of state. -/
structure SipState where
  v0 : UInt64
  v1 : UInt64
  v2 : UInt64
  v3 : UInt64

/-- `SIPROUND`. -/
def sipround (s : SipState) : SipState :=
  let v0 := s.v0 + s.v1
  let v1 := rotl s.v1 13 ^^^ v0
  let v0 := rotl v0 32
  let v2 := s.v2 + s.v3
  let v3 := rotl s.v3 16 ^^^ v2
  let v0 := v0 + v3
  let v3 := rotl v3 21 ^^^ v0
  let v2 := v2 + v1
  let v1 := rotl v1 17 ^^^ v2
  ⟨v0, v1, rotl v2 32, v3⟩

/-- Mix one word in. -/
def sipWord (s : SipState) (m : UInt64) : SipState :=
  let s := sipround { s with v3 := s.v3 ^^^ m }
  { s with v0 := s.v0 ^^^ m }

/-- The loop over the whole words, and the bytes that are left. -/
def sipWords : List UInt8 → SipState → SipState × List UInt8
  | a :: b :: c :: d :: e :: f :: g :: h :: input, s =>
    sipWords input (sipWord s (u8to64le [a, b, c, d, e, f, g, h]))
  | left, s => (s, left)

/-- `siphash`. -/
def siphash (input k : List UInt8) : UInt64 :=
  let k0 := u8to64le (k.take 8)
  let k1 := u8to64le ((k.drop 8).take 8)
  let (s, left) := sipWords input
    ⟨0x736f6d6570736575 ^^^ k0, 0x646f72616e646f6d ^^^ k1, 0x6c7967656e657261 ^^^ k0,
      0x7465646279746573 ^^^ k1⟩
  let s := sipWord s ((UInt64.ofNat input.length <<< 56) ||| u8to64le left)
  let s := sipround (sipround { s with v2 := s.v2 ^^^ 0xff })
  s.v0 ^^^ s.v1 ^^^ s.v2 ^^^ s.v3

/-! ## Without regard to case -/

/-- `siptlw`. -/
def siptlw (c : UInt8) : UInt8 := if 'A'.toUInt8 ≤ c ∧ c ≤ 'Z'.toUInt8 then c + 32 else c

/-- `U8TO64_LE_NOCASE`. -/
def u8to64leNocase (p : List UInt8) : UInt64 :=
  p.foldr (fun byte acc ↦ (acc <<< 8) ||| (siptlw byte).toUInt64) 0

/-- The loop of `siphash_nocase` over the whole words, and the bytes that are left. -/
def sipWordsNocase : List UInt8 → SipState → SipState × List UInt8
  | a :: b :: c :: d :: e :: f :: g :: h :: input, s =>
    sipWordsNocase input (sipWord s (u8to64leNocase [a, b, c, d, e, f, g, h]))
  | left, s => (s, left)

/-- `siphash_nocase`. -/
def siphashNocase (input k : List UInt8) : UInt64 :=
  let k0 := u8to64le (k.take 8)
  let k1 := u8to64le ((k.drop 8).take 8)
  let (s, left) := sipWordsNocase input
    ⟨0x736f6d6570736575 ^^^ k0, 0x646f72616e646f6d ^^^ k1, 0x6c7967656e657261 ^^^ k0,
      0x7465646279746573 ^^^ k1⟩
  let s := sipWord s ((UInt64.ofNat input.length <<< 56) ||| u8to64leNocase left)
  let s := sipround (sipround { s with v2 := s.v2 ^^^ 0xff })
  s.v0 ^^^ s.v1 ^^^ s.v2 ^^^ s.v3

theorem u8to64leNocase_eq (p : List UInt8) : u8to64leNocase p = u8to64le (p.map siptlw) := by
  rw [u8to64leNocase, u8to64le, List.foldr_map]

theorem sipWords_map (input : List UInt8) (s : SipState) :
    sipWords (input.map siptlw) s =
      ((sipWordsNocase input s).1, (sipWordsNocase input s).2.map siptlw) := by
  fun_induction sipWordsNocase input s with
  | case1 s a b c d e f g h input ih =>
    simp only [List.map_cons, sipWords]
    rw [u8to64leNocase_eq] at ih ⊢
    exact ih
  | case2 left s hleft =>
    rw [sipWords]
    intro a b c d e f g h input hmap
    obtain ⟨a, left, rfl, -, hmap⟩ := List.map_eq_cons_iff.mp hmap
    obtain ⟨b, left, rfl, -, hmap⟩ := List.map_eq_cons_iff.mp hmap
    obtain ⟨c, left, rfl, -, hmap⟩ := List.map_eq_cons_iff.mp hmap
    obtain ⟨d, left, rfl, -, hmap⟩ := List.map_eq_cons_iff.mp hmap
    obtain ⟨e, left, rfl, -, hmap⟩ := List.map_eq_cons_iff.mp hmap
    obtain ⟨f, left, rfl, -, hmap⟩ := List.map_eq_cons_iff.mp hmap
    obtain ⟨g, left, rfl, -, hmap⟩ := List.map_eq_cons_iff.mp hmap
    obtain ⟨h, left, rfl, -, -⟩ := List.map_eq_cons_iff.mp hmap
    exact hleft a b c d e f g h left rfl

/-- **`siphash_nocase` hashes the folded bytes.** -/
theorem siphashNocase_eq (input k : List UInt8) :
    siphashNocase input k = siphash (input.map siptlw) k := by
  simp only [siphashNocase, siphash, sipWords_map, u8to64leNocase_eq, List.length_map]

end LatteC
