import Mathlib.Logic.Function.Basic
import RtThreadOta.Fastlz.Decompress

/-!
# The FastLZ compressor (`fastlz.c`)

`FASTLZ_COMPRESSOR` at both levels. The input is `mem`, of which the first `length` bytes are to be
compressed; the hash of level two may look at one byte more. Pointers into the input are positions, and
`copy` literals stand behind the last control byte of the output, which is filled in afterwards.
-/

namespace RtThreadOta

namespace Fastlz

/-- `MAX_LEN` -/
def maxLen : ℕ := 264

/-- `MAX_FARDISTANCE` -/
def maxFarDistance : ℕ := 65535 + Level.two.maxDistance - 1

/-- What a match must be nearer than. -/
def Level.reach : Level → ℕ
  | one => Level.one.maxDistance
  | two => maxFarDistance

/-- `HASH_SIZE` -/
def hashSize : ℕ := 1 <<< 13

/-- `FASTLZ_READU16` -/
def readU16 (mem : ℕ → UInt8) (p : ℕ) : ℕ := (mem p).toNat ||| (mem (p + 1)).toNat <<< 8

/-- `HASH_FUNCTION` -/
def hashFunction (mem : ℕ → UInt8) (p : ℕ) : Fin hashSize :=
  ⟨(readU16 mem p ^^^ (readU16 mem (p + 1) ^^^ (readU16 mem p >>> (16 - 13)))) &&& (hashSize - 1),
    Nat.lt_of_le_of_lt Nat.and_le_right (by decide)⟩

/-- The variables of `FASTLZ_COMPRESSOR` at the head of its loop. -/
structure Compressor where
  ip : ℕ
  /-- what lies between `output` and `op` -/
  out : List UInt8
  copy : ℕ
  htab : Fin hashSize → ℕ

/-! ## The search -/

/-- "check for a run" -/
def isRun (mem : ℕ → UInt8) (ip : ℕ) : Prop :=
  mem ip = mem (ip - 1) ∧ readU16 mem (ip - 1) = readU16 mem (ip + 1)

instance (mem : ℕ → UInt8) (ip : ℕ) : Decidable (isRun mem ip) :=
  inferInstanceAs (Decidable (_ ∧ _))

/-- "is this a match?": its `len`, unless it goes to `literal`. -/
def isMatch (level : Level) (mem : ℕ → UInt8) (anchor ref : ℕ) : Option ℕ :=
  let distance := anchor - ref
  if distance = 0 ∨ level.reach ≤ distance ∨ mem ref ≠ mem anchor ∨
      mem (ref + 1) ≠ mem (anchor + 1) ∨ mem (ref + 2) ≠ mem (anchor + 2) then none
  else if level = .two ∧ level.maxDistance ≤ distance then
    -- "far, needs at least 5-byte match"
    if mem (anchor + 3) ≠ mem (ref + 3) ∨ mem (anchor + 4) ≠ mem (ref + 4) then none
    else some (3 + 2)
  else some 3

/-- `while(ip < ip_bound) if(*ref++ != x) break; else ip++;` with `left` bytes up to the bound. -/
def runLoop (mem : ℕ → UInt8) (x : UInt8) : (left : ℕ) → (ref ip : ℕ) → ℕ
  | 0, _, ip => ip
  | left + 1, ref, ip => if mem ref ≠ x then ip else runLoop mem x left (ref + 1) (ip + 1)

/-- `if(*ref++ != *ip++) break;` up to `left` times: where `ip` stands, and whether no byte differed. -/
def compareLoop (mem : ℕ → UInt8) : (left : ℕ) → (ref ip : ℕ) → ℕ × Bool
  | 0, _, ip => (ip, true)
  | left + 1, ref, ip =>
    if mem ref ≠ mem ip then (ip + 1, false) else compareLoop mem left (ref + 1) (ip + 1)

/-- `ip` when the match has been followed to its end. -/
def matchEnd (mem : ℕ → UInt8) (bound anchor len distance : ℕ) : ℕ :=
  let ip := anchor + len
  if distance - 1 = 0 then runLoop mem (mem (ip - 1)) (bound - ip) (ip - distance) ip
  else
    match compareLoop mem 8 (ip - distance) ip with
    | (ip, false) => ip
    | (ip, true) => (compareLoop mem (bound - ip) (ip - distance) ip).1

/-! ## The output -/

/-- "if we have copied something, adjust the copy count": the control byte of the literals, or none. -/
def adjustCopy (out : List UInt8) (copy : ℕ) : List UInt8 :=
  if copy ≠ 0 then out.set (out.length - copy - 1) (UInt8.ofNat (copy - 1)) else out.dropLast

/-- `for(len-=7; len >= 255; len-= 255) *op++ = 255; *op++ = len;` -/
def lengthCodes : (fuel len : ℕ) → List UInt8
  | 0, len => [UInt8.ofNat len]
  | fuel + 1, len => if 255 ≤ len then 255 :: lengthCodes fuel (len - 255) else [UInt8.ofNat len]

/-- A match of `len + 2` bytes that is not split. -/
def encodeShort (len distance : ℕ) : List UInt8 :=
  if len < 7 then [UInt8.ofNat ((len <<< 5) + (distance >>> 8)), UInt8.ofNat (distance &&& 255)]
  else
    [UInt8.ofNat ((7 <<< 5) + (distance >>> 8)), UInt8.ofNat (len - 7),
      UInt8.ofNat (distance &&& 255)]

/-- "encode the match" at level one. The fuel is the length. -/
def encodeMatch1 (distance : ℕ) : (fuel len : ℕ) → List UInt8
  | 0, len => encodeShort len distance
  | fuel + 1, len =>
    if maxLen - 2 < len then
      [UInt8.ofNat ((7 <<< 5) + (distance >>> 8)), UInt8.ofNat (maxLen - 2 - 7 - 2),
        UInt8.ofNat (distance &&& 255)] ++ encodeMatch1 distance fuel (len - (maxLen - 2))
    else encodeShort len distance

/-- "encode the match" at level two. -/
def encodeMatch2 (distance len : ℕ) : List UInt8 :=
  if distance < Level.two.maxDistance then
    if len < 7 then [UInt8.ofNat ((len <<< 5) + (distance >>> 8)), UInt8.ofNat (distance &&& 255)]
    else
      UInt8.ofNat ((7 <<< 5) + (distance >>> 8)) :: lengthCodes len (len - 7) ++
        [UInt8.ofNat (distance &&& 255)]
  else
    -- "far away, but not yet in the another galaxy..."
    let distance := distance - Level.two.maxDistance
    if len < 7 then
      [UInt8.ofNat ((len <<< 5) + 31), 255, UInt8.ofNat (distance >>> 8),
        UInt8.ofNat (distance &&& 255)]
    else
      UInt8.ofNat ((7 <<< 5) + 31) :: lengthCodes len (len - 7) ++
        [255, UInt8.ofNat (distance >>> 8), UInt8.ofNat (distance &&& 255)]

/-- "encode the match" -/
def encodeMatch : Level → (distance len : ℕ) → List UInt8
  | .one, distance, len => encodeMatch1 distance len len
  | .two, distance, len => encodeMatch2 distance len

/-! ## The loop -/

/-- `literal:`, and the body of the loop over the left-over bytes. -/
def Compressor.literal (mem : ℕ → UInt8) (s : Compressor) : Compressor :=
  if s.copy + 1 = maxCopy then
    { s with ip := s.ip + 1, out := s.out ++ [mem s.ip] ++ [UInt8.ofNat (maxCopy - 1)], copy := 0 }
  else { s with ip := s.ip + 1, out := s.out ++ [mem s.ip], copy := s.copy + 1 }

/-- From `match:` to `continue`, for a match of `len` bytes at `s.ip` to begin with. -/
def Compressor.takeMatch (level : Level) (mem : ℕ → UInt8) (bound len distance : ℕ)
    (s : Compressor) : Compressor :=
  let ip := matchEnd mem bound s.ip len distance - 3
  { ip := ip + 2
    out := adjustCopy s.out s.copy ++ encodeMatch level (distance - 1) (ip - s.ip) ++
      [UInt8.ofNat (maxCopy - 1)]
    copy := 0
    htab := Function.update (Function.update s.htab (hashFunction mem ip) ip)
      (hashFunction mem (ip + 1)) (ip + 1) }

/-- One iteration of the main loop. -/
def Compressor.step (level : Level) (mem : ℕ → UInt8) (length : ℕ) (s : Compressor) : Compressor :=
  if level = .two ∧ isRun mem s.ip then s.takeMatch level mem (length - 2) 3 1
  else
    let hval := hashFunction mem s.ip
    let ref := s.htab hval
    let s := { s with htab := Function.update s.htab hval s.ip }
    match isMatch level mem s.ip ref with
    | none => s.literal mem
    | some len => s.takeMatch level mem (length - 2) len (s.ip - ref)

/-- `while (ip < ip_limit)`. Every iteration moves `ip`, so the length is fuel enough. -/
def Compressor.mainLoop (level : Level) (mem : ℕ → UInt8) (length : ℕ) :
    (fuel : ℕ) → Compressor → Compressor
  | 0, s => s
  | fuel + 1, s =>
    if s.ip + 12 < length then (s.step level mem length).mainLoop level mem length fuel else s

/-- "left-over as literal copy", `left` bytes of it. -/
def Compressor.leftOver (mem : ℕ → UInt8) : (left : ℕ) → Compressor → Compressor
  | 0, s => s
  | left + 1, s => (s.literal mem).leftOver mem left

/-- The state behind "we start with literal copy". -/
def Compressor.start (mem : ℕ → UInt8) : Compressor where
  ip := 2
  out := [UInt8.ofNat (maxCopy - 1), mem 0, mem 1]
  copy := 2
  htab := fun _ => 0

/-- "marker for fastlz2" -/
def marker : Level → List UInt8 → List UInt8
  | .one, out => out
  | .two, out => out.modify 0 fun b => b ||| UInt8.ofNat (1 <<< 5)

/-- `FASTLZ_COMPRESSOR`: the output, when `malloc` gives it its table. -/
def fastlzCompressor (level : Level) (mem : ℕ → UInt8) (length : ℕ) : List UInt8 :=
  if length < 4 then
    if length ≠ 0 then UInt8.ofNat (length - 1) :: Lz77.segment mem 0 length else []
  else
    let s := (Compressor.start mem).mainLoop level mem length length
    let s := s.leftOver mem (length - s.ip)
    marker level (adjustCopy s.out s.copy)

/-- `fastlz_compress_level`; nothing for an unknown level. -/
def fastlzCompressLevel (level : ℕ) (mem : ℕ → UInt8) (length : ℕ) : List UInt8 :=
  if level = 1 then fastlzCompressor .one mem length
  else if level = 2 then fastlzCompressor .two mem length
  else []

/-- `fastlz_compress` -/
def fastlzCompress (mem : ℕ → UInt8) (length : ℕ) : List UInt8 :=
  if length < 65536 then fastlzCompressor .one mem length else fastlzCompressor .two mem length

end Fastlz

end RtThreadOta
