import RtThreadOta.Library.Lz77

/-!
# The FastLZ decompressor (`fastlz.c`)

`fastlz.c` includes itself twice, once for each compression level. `Level` is `FASTLZ_LEVEL`, and the
functions that follow are the text of the file with the level as a parameter. The copy loops are those
of `FASTLZ_STRICT_ALIGN`, which holds on every target but x86.

The memory that may be read is the list of bytes from `input` on. It may go on behind the block, and the
decompressor does read there: only literal runs are checked against `ip_limit`. A read behind the
memory itself is `Result.overread`. Lengths and distances are natural numbers; a `flzuint32` would
wrap only on a length code of 16 million bytes.
-/

namespace RtThreadOta

namespace Fastlz

/-- `FASTLZ_LEVEL` -/
inductive Level where
  | one
  | two
deriving DecidableEq, Repr

/-- `MAX_DISTANCE` -/
def Level.maxDistance : Level → ℕ
  | one => 8192
  | two => 8191

/-- `MAX_COPY` -/
def maxCopy : ℕ := 32

/-- What a call comes to: it returns what it wrote, it returns 0, or it reads where there is no memory. -/
inductive Result where
  | returned (out : List UInt8)
  | corrupt
  | overread
deriving DecidableEq, Repr

/-- The variables of `FASTLZ_DECOMPRESSOR` at the head of its loop. -/
structure Decompressor where
  ctrl : ℕ
  /-- the memory from `ip` on -/
  rest : List UInt8
  /-- `ip_limit - ip`, and zero when `ip` is past it -/
  left : ℕ
  /-- what lies between `output` and `op` -/
  out : List UInt8

/-- `len += *ip++;` -/
def addCode (len : ℕ) : List UInt8 → Option (ℕ × List UInt8)
  | [] => none
  | code :: rest => some (len + code.toNat, rest)

/-- `do { code = *ip++; len += code; } while (code==255);` -/
def addCodes : ℕ → List UInt8 → Option (ℕ × List UInt8)
  | _, [] => none
  | len, code :: rest =>
    if code = 255 then addCodes (len + 255) rest else some (len + code.toNat, rest)

/-- The length of a match: `if (len == 7-1) …` -/
def matchLen (level : Level) (len : ℕ) (rest : List UInt8) : Option (ℕ × List UInt8) :=
  if len = 7 - 1 then
    match level with
    | .one => addCode len rest
    | .two => addCodes len rest
  else some (len, rest)

/-- "match from 16-bit distance" -/
def farOfs : List UInt8 → Option (ℕ × List UInt8)
  | hi :: lo :: rest => some ((hi.toNat <<< 8) + lo.toNat + Level.two.maxDistance, rest)
  | _ => none

/-- `op - ref` from the high part `ofs` and the bytes at `ip`. -/
def matchOfs (level : Level) (ofs : ℕ) : List UInt8 → Option (ℕ × List UInt8)
  | [] => none
  | code :: rest =>
    if level = .two ∧ code = 255 ∧ ofs = 31 <<< 8 then farOfs rest
    else some (ofs + code.toNat, rest)

/-- A match behind its control byte: `len`, `op - ref`, and the memory from `ip` on. -/
def matchToken (level : Level) (ctrl : ℕ) (rest : List UInt8) : Option (ℕ × ℕ × List UInt8) := do
  let (len, rest) ← matchLen level ((ctrl >>> 5) - 1) rest
  let (ofs, rest) ← matchOfs level ((ctrl &&& 31) <<< 8) rest
  return (len, ofs, rest)

/-- The end of an iteration: `if (ip < ip_limit) ctrl = *ip++; else loop = 0;` -/
def next (rest : List UInt8) (left : ℕ) (out : List UInt8) : Result ⊕ Decompressor :=
  if 0 < left then
    match rest with
    | [] => .inl .overread
    | ctrl :: rest => .inr ⟨ctrl.toNat, rest, left - 1, out⟩
  else .inl (.returned out)

/-- The copy of `len + 3` bytes from `ref - 1`, with the loop for a run where `ref == op`. -/
def copyMatch (len ofs : ℕ) (out : List UInt8) : List UInt8 :=
  if ofs = 0 then out ++ List.replicate (len + 3) (out.getD (out.length - 1) 0)
  else Lz77.copyBack (ofs + 1) (len + 3) out

/-- One iteration of the `do … while (loop)`. -/
def Decompressor.step (level : Level) (maxout : ℕ) (s : Decompressor) : Result ⊕ Decompressor :=
  if 32 ≤ s.ctrl then
    match matchToken level s.ctrl s.rest with
    | none => .inl .overread
    | some (len, ofs, rest) =>
      if maxout < s.out.length + len + 3 then .inl .corrupt
      -- `ref-1 < (flzuint8 *)output`
      else if s.out.length < ofs + 1 then .inl .corrupt
      else next rest (s.left - (s.rest.length - rest.length)) (copyMatch len ofs s.out)
  else
    let n := s.ctrl + 1
    if maxout < s.out.length + n then .inl .corrupt
    else if s.left < n then .inl .corrupt
    else if s.rest.length < n then .inl .overread
    else next (s.rest.drop n) (s.left - n) (s.out ++ s.rest.take n)

/-- The loop. Every iteration but the last takes a control byte in front of `ip_limit`, so `left + 1` of
them are enough. -/
def Decompressor.loop (level : Level) (maxout : ℕ) : (fuel : ℕ) → Decompressor → Result
  | 0, _ => .overread
  | fuel + 1, s =>
    match s.step level maxout with
    | .inl r => r
    | .inr s => s.loop level maxout fuel

/-- `FASTLZ_DECOMPRESSOR` -/
def fastlzDecompressor (level : Level) (input : List UInt8) (length maxout : ℕ) : Result :=
  match input with
  | [] => .overread
  | ctrl :: rest =>
    (Decompressor.mk (ctrl.toNat &&& 31) rest (length - 1) []).loop level maxout (length + 1)

/-- `fastlz_decompress` -/
def fastlzDecompress (input : List UInt8) (length maxout : ℕ) : Result :=
  match input with
  | [] => .overread
  | magic :: _ =>
    if (magic.toNat >>> 5) + 1 = 1 then fastlzDecompressor .one input length maxout
    else if (magic.toNat >>> 5) + 1 = 2 then fastlzDecompressor .two input length maxout
    else .corrupt

end Fastlz

end RtThreadOta
