import Mathlib.Logic.Function.Basic
import RtThreadOta.Quicklz.Decompress

/-!
# The QuickLZ compressor (`quicklz.c`)

`qlz_compress` at level 3. The input is `mem`, of which the first `size` bytes are to be compressed.
Pointers into it are positions. The output is kept in two parts: what lies in front of the control word
that is being made, and what lies behind it.

`state` may hold pointers from a call before. They are not followed: a slot counts only below the
counter of its hash value, and the counters are cleared first.
-/

namespace RtThreadOta

namespace Quicklz

open Words

/-- `QLZ_POINTERS` -/
abbrev qlzPointers : ℕ := 16

/-- `QLZ_HASH_VALUES` -/
abbrev qlzHashValues : ℕ := 4096

/-- `qlz_state_compress` -/
structure QlzStateCompress where
  /-- `hash[..].offset[..]` -/
  offset : Fin qlzHashValues → Fin qlzPointers → ℕ
  hashCounter : Fin qlzHashValues → UInt8

/-- `reset_table_compress` -/
def resetTableCompress (state : QlzStateCompress) : QlzStateCompress :=
  { state with hashCounter := fun _ => 0 }

/-- `fast_read` of three bytes -/
def fastRead3 (mem : ℕ → UInt8) (p : ℕ) : ℕ :=
  (mem p).toNat + 256 * (mem (p + 1)).toNat + 65536 * (mem (p + 2)).toNat

/-- `fast_write` -/
def fastWrite (f bytes : ℕ) : List UInt8 := (encodeLe32 f).take bytes

/-- `hash_func` -/
def hashFunc (i : ℕ) : Fin qlzHashValues :=
  ⟨((i >>> 12) ^^^ i) &&& (qlzHashValues - 1), Nat.lt_of_le_of_lt Nat.and_le_right (by decide)⟩

/-- `hashat` -/
def hashat (mem : ℕ → UInt8) (p : ℕ) : Fin qlzHashValues := hashFunc (fastRead3 mem p)

/-- `state->hash[hash].offset[c & (QLZ_POINTERS - 1)] = p; c++; state->hash_counter[hash] = c;` -/
def QlzStateCompress.remember (state : QlzStateCompress) (hash : Fin qlzHashValues) (p : ℕ) :
    QlzStateCompress where
  offset := Function.update state.offset hash (Function.update (state.offset hash)
    (Fin.ofNat qlzPointers (state.hashCounter hash).toNat) p)
  hashCounter := Function.update state.hashCounter hash (state.hashCounter hash + 1)

/-- `for(u = 1; u < matchlen; u++)`, with `n` positions to go from `p` on. -/
def rememberFrom (mem : ℕ → UInt8) : (n p : ℕ) → QlzStateCompress → QlzStateCompress
  | 0, _, state => state
  | n + 1, p, state => rememberFrom mem n (p + 1) (state.remember (hashat mem p) p)

/-! ## The search -/

/-- `remaining` -/
def remaining (size src : ℕ) : ℕ := min 255 (size - uncompressedEnd - src)

/-- `while(*(o + m) == *(src + m) && m < remaining) m++;` -/
def extend (mem : ℕ → UInt8) (remaining o src : ℕ) : (fuel m : ℕ) → ℕ
  | 0, m => m
  | fuel + 1, m =>
    if mem (o + m) = mem (src + m) ∧ m < remaining then extend mem remaining o src fuel (m + 1) else m

/-- `((fast_read(o, 3) ^ fetch) & 0xffffff) == 0` -/
def SameThree (mem : ℕ → UInt8) (o src : ℕ) : Prop :=
  (fastRead3 mem o ^^^ fastRead3 mem src) &&& 0xffffff = 0

instance (mem : ℕ → UInt8) (o src : ℕ) : Decidable (SameThree mem o src) :=
  inferInstanceAs (Decidable (_ = _))

/-- `matchlen` at the first pointer -/
def firstMatch (mem : ℕ → UInt8) (size src : ℕ) (c : UInt8) (offset2 : ℕ) : ℕ :=
  if offset2 + minOffset < src ∧ 0 < c ∧ SameThree mem offset2 src then
    if mem (offset2 + 3) = mem (src + 3) then
      extend mem (remaining size src) offset2 src (remaining size src) 4
    else 3
  else 0

/-- The pair of `offset2` and `matchlen` behind a look at one more pointer. -/
def better (mem : ℕ → UInt8) (size src o : ℕ) (best : ℕ × ℕ) : ℕ × ℕ :=
  if SameThree mem o src ∧ o + minOffset < src then
    let m := extend mem (remaining size src) o src (remaining size src) 3
    if best.2 < m ∨ m = best.2 ∧ best.1 < o then (o, m) else best
  else best

/-- `for(k = 1; k < QLZ_POINTERS && c > k; k++)`, with `left` rounds to go. -/
def search (mem : ℕ → UInt8) (size src : ℕ) (c : UInt8) (offset : Fin qlzPointers → ℕ) :
    (left k : ℕ) → ℕ × ℕ → ℕ × ℕ
  | 0, _, best => best
  | left + 1, k, best =>
    if k < c.toNat then
      search mem size src c offset left (k + 1)
        (better mem size src (offset (Fin.ofNat qlzPointers k)) best)
    else best

/-- `offset2` and `matchlen` behind the search. -/
def findMatch (mem : ℕ → UInt8) (size src : ℕ) (state : QlzStateCompress) : ℕ × ℕ :=
  let hash := hashat mem src
  let c := state.hashCounter hash
  let offset2 := state.offset hash 0
  search mem size src c (state.offset hash) (qlzPointers - 1) 1
    (offset2, firstMatch mem size src c offset2)

/-! ## The output -/

/-- The five formats of a match. -/
def encodeMatch (offset matchlen : ℕ) : List UInt8 :=
  if matchlen = 3 ∧ offset ≤ 63 then fastWrite (offset <<< 2) 1
  else if matchlen = 3 ∧ offset ≤ 16383 then fastWrite ((offset <<< 2) ||| 1) 2
  else if matchlen ≤ 18 ∧ offset ≤ 1023 then
    fastWrite (((matchlen - 3) <<< 2) ||| (offset <<< 6) ||| 2) 2
  else if matchlen ≤ 33 then fastWrite (((matchlen - 2) <<< 2) ||| (offset <<< 7) ||| 3) 3
  else fastWrite (((matchlen - 3) <<< 7) ||| (offset <<< 15) ||| 3) 4

/-- The variables of `qlz_compress_core` at the head of its loops. -/
structure Compressor where
  src : ℕ
  /-- what lies between `destination` and `cword_ptr` -/
  out : List UInt8
  /-- `cword_val` -/
  cword : ℕ
  /-- what lies between `cword_ptr + CWORD_LEN` and `dst` -/
  behind : List UInt8
  state : QlzStateCompress

/-- `dst - destination` -/
def Compressor.written (s : Compressor) : ℕ := s.out.length + cwordLen + s.behind.length

/-- `fast_write((cword_val >> 1) | (1U << 31), cword_ptr, CWORD_LEN);` and what is behind it -/
def Compressor.closed (cword : ℕ) (s : Compressor) : List UInt8 :=
  s.out ++ fastWrite ((cword >>> 1) ||| (1 <<< 31)) cwordLen ++ s.behind

/-- A full control word is stored, and the next one begun. -/
def Compressor.nextCword (s : Compressor) : Compressor :=
  { s with out := s.closed s.cword, cword := 1 <<< 31, behind := [] }

/-- "store uncompressed if compression ratio is too low" -/
def Compressor.RatioTooLow (size : ℕ) (s : Compressor) : Prop :=
  size >>> 1 < s.src ∧ s.src - (s.src >>> 5) < s.written

instance (size : ℕ) (s : Compressor) : Decidable (s.RatioTooLow size) :=
  inferInstanceAs (Decidable (_ ∧ _))

/-- A literal. -/
def Compressor.literal (mem : ℕ → UInt8) (s : Compressor) : Compressor :=
  { s with src := s.src + 1, cword := s.cword >>> 1, behind := s.behind ++ [mem s.src] }

/-- What is done at a position at which a match may start. -/
def Compressor.step (mem : ℕ → UInt8) (size : ℕ) (s : Compressor) : Compressor :=
  match findMatch mem size s.src s.state with
  | (o, matchlen) =>
    let state := s.state.remember (hashat mem s.src) s.src
    if 2 < matchlen ∧ s.src - o < 131071 then
      { src := s.src + matchlen
        out := s.out
        cword := (s.cword >>> 1) ||| (1 <<< 31)
        behind := s.behind ++ encodeMatch (s.src - o) matchlen
        state := rememberFrom mem (matchlen - 1) (s.src + 1) state }
    else { s with state := state }.literal mem

/-- `while(src <= last_matchstart)`; nothing when the input is to be stored. Every round moves `src`, so
`size` rounds are enough. -/
def Compressor.mainLoop (mem : ℕ → UInt8) (size : ℕ) : (fuel : ℕ) → Compressor → Option Compressor
  | 0, s => some s
  | fuel + 1, s =>
    if s.src + unconditionalMatchlen + uncompressedEnd + 1 ≤ size then
      if s.cword &&& 1 = 1 then
        if s.RatioTooLow size then none
        else (s.nextCword.step mem size).mainLoop mem size fuel
      else (s.step mem size).mainLoop mem size fuel
    else some s

/-- `while(src <= last_byte)`, with `left` bytes to go. -/
def Compressor.lastLoop (mem : ℕ → UInt8) : (left : ℕ) → Compressor → Compressor
  | 0, s => s
  | left + 1, s =>
    if s.cword &&& 1 = 1 then (s.nextCword.literal mem).lastLoop mem left
    else (s.literal mem).lastLoop mem left

/-- `while((cword_val & 1) != 1) cword_val = (cword_val >> 1);` -/
def alignCword : (fuel cword : ℕ) → ℕ
  | 0, cword => cword
  | fuel + 1, cword => if cword &&& 1 ≠ 1 then alignCword fuel (cword >>> 1) else cword

/-- The state in front of the loops. -/
def Compressor.start (state : QlzStateCompress) : Compressor where
  src := 0
  out := []
  cword := 1 <<< 31
  behind := []
  state := state

/-- `qlz_compress_core`: nothing for 0, and else the bytes that it counts. They are at least nine, of which
those that it did not write are what was at `destination`. -/
def qlzCompressCore (mem : ℕ → UInt8) (destination : ℕ → UInt8) (size : ℕ)
    (state : QlzStateCompress) : Option (List UInt8) :=
  match (Compressor.start state).mainLoop mem size size with
  | none => none
  | some s =>
    let s := s.lastLoop mem (size - s.src)
    let bytes := s.closed (alignCword 32 s.cword)
    some (bytes ++ Lz77.segment destination bytes.length (9 - bytes.length))

/-- The header in front of the bytes; `r` and `size` are written with one or with four bytes. -/
def qlzHeader (base compressed r size : ℕ) : List UInt8 :=
  if base = 3 then
    [UInt8.ofNat (compressed ||| 3 <<< 2 ||| 1 <<< 6), UInt8.ofNat r, UInt8.ofNat size]
  else
    UInt8.ofNat (2 ||| compressed ||| 3 <<< 2 ||| 1 <<< 6) :: (fastWrite r 4 ++ fastWrite size 4)

/-- `qlz_compress`: the bytes that it counts, where `destination` held other ones before. -/
def qlzCompress (mem : ℕ → UInt8) (destination : ℕ → UInt8) (size : ℕ) (state : QlzStateCompress) :
    List UInt8 :=
  if size = 0 ∨ 0xffffffff - 400 < size then []
  else
    let base := if size < 216 then 3 else 9
    match qlzCompressCore mem (fun i => destination (base + i)) size (resetTableCompress state) with
    | some bytes => qlzHeader base 1 (base + bytes.length) size ++ bytes
    | none => qlzHeader base 0 (size + base) size ++ Lz77.segment mem 0 size

end Quicklz

end RtThreadOta
