import RtThreadOta.Library.Lz77
import RtThreadOta.Library.Words

/-!
# The QuickLZ decompressor (`quicklz.c`)

`QLZ_COMPRESSION_LEVEL` is 3 and `QLZ_STREAMING_BUFFER` is 0 in `rtconfig.h`, `quicklz.h` defines
`QLZ_MEMORY_SAFE`, and the target is not x86. A control word holds the kinds of the next 31 tokens, low
bit first, below a one: a set bit is a match, a clear one a literal byte.

The memory that may be read is the list of bytes from `source` on. It may go on behind the block. A read
behind the memory itself is `Result.overread`. Pointers are positions: they do not wrap around.
-/

namespace RtThreadOta

namespace Quicklz

open Words

/-- `MINOFFSET` -/
def minOffset : ℕ := 2

/-- `UNCONDITIONAL_MATCHLEN` -/
def unconditionalMatchlen : ℕ := 6

/-- `UNCOMPRESSED_END` -/
def uncompressedEnd : ℕ := 4

/-- `CWORD_LEN` -/
def cwordLen : ℕ := 4

/-! ## The header -/

/-- The bytes of each size: `(((*source) & 2) == 2) ? 4 : 1` -/
def sizeBytes (source : List UInt8) : ℕ := if byteAt source 0 &&& 2 = 2 then 4 else 1

/-- `fast_read` of one or of four bytes -/
def fastRead (bs : List UInt8) (i bytes : ℕ) : ℕ := if bytes = 4 then le32 bs i else byteAt bs i

/-- `qlz_size_decompressed` -/
def qlzSizeDecompressed (source : List UInt8) : ℕ :=
  fastRead source (1 + sizeBytes source) (sizeBytes source)

/-- `qlz_size_compressed` -/
def qlzSizeCompressed (source : List UInt8) : ℕ := fastRead source 1 (sizeBytes source)

/-- `qlz_size_header` -/
def qlzSizeHeader (source : List UInt8) : ℕ := 2 * sizeBytes source + 1

/-! ## The loop -/

/-- What a call comes to: it returns the size of what it wrote, it returns 0 behind what it wrote, or it
reads where there is no memory. -/
inductive Result where
  | returned (out : List UInt8)
  | corrupt (out : List UInt8)
  | overread
deriving DecidableEq, Repr

/-- The variables of `qlz_decompress_core` at the head of its loop. -/
structure Decompressor where
  /-- `cword_val` -/
  cword : ℕ
  /-- the memory from `src` on -/
  rest : List UInt8
  /-- `last_source_byte + 1 - src`, and zero when `src` is past it -/
  left : ℕ
  /-- what lies between `destination` and `dst` -/
  out : List UInt8

/-- A used up control word is replaced by the next one. -/
def Decompressor.reload (s : Decompressor) : Result ⊕ Decompressor :=
  if s.cword = 1 then
    if s.left < cwordLen then .inl (.corrupt s.out)
    else if s.rest.length < cwordLen then .inl .overread
    else .inr { s with cword := le32 s.rest 0, rest := s.rest.drop cwordLen, left := s.left - cwordLen }
  else .inr s

/-- The five formats of a match: its `offset`, its `matchlen`, and how far `src` goes. -/
def matchToken (fetch : ℕ) : ℕ × ℕ × ℕ :=
  if fetch &&& 3 = 0 then ((fetch &&& 0xff) >>> 2, 3, 1)
  else if fetch &&& 2 = 0 then ((fetch &&& 0xffff) >>> 2, 3, 2)
  else if fetch &&& 1 = 0 then ((fetch &&& 0xffff) >>> 6, ((fetch >>> 2) &&& 15) + 3, 2)
  else if fetch &&& 127 ≠ 3 then ((fetch >>> 7) &&& 0x1ffff, ((fetch >>> 2) &&& 0x1f) + 2, 3)
  else (fetch >>> 15, ((fetch >>> 7) &&& 255) + 3, 4)

/-- A match. The bound on `matchlen` is a difference of pointers, taken as a `ui32`. -/
def Decompressor.takeMatch (size : ℕ) (s : Decompressor) : Result ⊕ Decompressor :=
  match matchToken (le32 s.rest 0) with
  | (offset, matchlen, used) =>
    -- `offset2 < history || offset2 > dst - MINOFFSET - 1`
    if s.out.length < offset ∨ offset < minOffset + 1 then .inl (.corrupt s.out)
    else if ofInt32 ((size : ℤ) - s.out.length - uncompressedEnd) < matchlen then
      .inl (.corrupt s.out)
    else
      .inr ⟨s.cword >>> 1, s.rest.drop used, s.left - used, Lz77.copyBack offset matchlen s.out⟩

/-- `bitlut`: how many clear bits a control word ends in, up to four -/
def bitlut : List ℕ := [4, 0, 1, 0, 2, 0, 1, 0, 3, 0, 1, 0, 2, 0, 1, 0]

/-- Up to four literals. Four bytes are copied, of which those behind the literals are written again. -/
def Decompressor.takeLiterals (s : Decompressor) : Decompressor :=
  let n := bitlut.getD (s.cword &&& 0xf) 0
  ⟨s.cword >>> n, s.rest.drop n, s.left - n, s.out ++ s.rest.take n⟩

/-- `while(dst <= last_destination_byte)`, with `missing` bytes to go. -/
def lastLiterals : (missing cword : ℕ) → (rest : List UInt8) → (left : ℕ) → (out : List UInt8) → Result
  | 0, _, _, _, out => .returned out
  | missing + 1, cword, rest, left, out =>
    let cword' := if cword = 1 then 1 <<< 31 else cword
    let rest' := if cword = 1 then rest.drop cwordLen else rest
    let left' := if cword = 1 then left - cwordLen else left
    if left' = 0 then .corrupt out
    else
      match rest' with
      | [] => .overread
      | b :: rest' => lastLiterals missing (cword' >>> 1) rest' (left' - 1) (out ++ [b])

/-- One round of `for(;;)`. -/
def Decompressor.step (size : ℕ) (s : Decompressor) : Result ⊕ Decompressor :=
  match s.reload with
  | .inl r => .inl r
  | .inr s =>
    if s.left < 4 then .inl (.corrupt s.out)
    else if s.rest.length < 4 then .inl .overread
    else if s.cword &&& 1 = 1 then s.takeMatch size
    -- `dst < last_matchstart`
    else if s.out.length + unconditionalMatchlen + uncompressedEnd + 1 < size then
      .inr s.takeLiterals
    else .inl (lastLiterals (size - s.out.length) s.cword s.rest s.left s.out)

/-- `for(;;)`. Every round but the last takes a byte in front of `last_source_byte`, so `left + 1` of them
are enough. -/
def Decompressor.loop (size : ℕ) : (fuel : ℕ) → Decompressor → Result
  | 0, _ => .overread
  | fuel + 1, s =>
    match s.step size with
    | .inl r => r
    | .inr s => s.loop size fuel

/-- The state in front of the loop. -/
def Decompressor.start (source : List UInt8) : Decompressor where
  cword := 1
  rest := source.drop (qlzSizeHeader source)
  left := qlzSizeCompressed source - qlzSizeHeader source
  out := []

/-- `qlz_decompress_core` -/
def qlzDecompressCore (source : List UInt8) (size : ℕ) : Result :=
  (Decompressor.start source).loop size (qlzSizeCompressed source + 1)

/-- `qlz_decompress` -/
def qlzDecompress (source : List UInt8) : Result :=
  let dsiz := qlzSizeDecompressed source
  if source.length < qlzSizeHeader source then .overread
  else if byteAt source 0 &&& 1 = 1 then qlzDecompressCore source dsiz
  -- `memcpy(destination, source + qlz_size_header(source), dsiz);`
  else if source.length < qlzSizeHeader source + dsiz then .overread
  else .returned ((source.drop (qlzSizeHeader source)).take dsiz)

end Quicklz

end RtThreadOta
