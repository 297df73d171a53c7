import RtThreadOta.Qboot.DryRun

/-!
# What keeps the copies within the buffers

Reads of the package go behind what is left in `cmprs_buf`, and decompressed blocks into `crypt_buf`. A
copy out of bounds halts the model as undefined. The lengths of the reads are made in `int`, so a package
size next to `2 ^ 32` gets past the comparison and, since the bounds check of FAL wraps as well, past that
too. Between the calls of a framed codec the bytes of an incomplete block stay in `cmprs_buf`, and nothing
bounds them but the block's size.
-/

namespace RtThreadOta

open Interaction Words

variable {L : Layout} {P : Codecs} {env : Env} {src : FalPartition} {fuel : ℕ} {s : Board}
  {info : FwInfo} {ram : Ram P} {τ : Type}

/-- Not a copy out of bounds. -/
def Halt.Harmless (h : Halt) : Prop := h ≠ .undefined

/-- The framed codec of a compression type. -/
def framedCodec (P : Codecs) (cmprsType : ℕ) : Option (List UInt8 → List UInt8) :=
  if cmprsType = qbootAlgoCmprsQuicklz then some P.qlzDecompress
  else if cmprsType = qbootAlgoCmprsFastlz then
    some fun block => P.fastlzDecompress block qbootBufSize
  else none

/-- What a sink asks for and how it may halt. -/
def Sink.Yields (sink : Sink τ) : Prop :=
  (∀ st pos bs, (sink.put st pos bs).Yields Halt.Harmless fun _ => True) ∧
    ∀ st pos bs, (sink.flush st pos bs).Yields Halt.Harmless fun _ => True

section Framed

variable {f : List UInt8 → List UInt8} {rawSize pos avail : ℕ} {residue rest bs : List UInt8}

end Framed

section Functions

variable {name : List UInt8} {dstName srcName : PartName} {dst : FalPartition}
  {f : List UInt8 → List UInt8}

/-- A package that both functions decode piece by piece with a framed codec. -/
structure Staged (P : Codecs) (info : FwInfo) (f : List UInt8 → List UInt8) : Prop where
  codec : framedCodec P info.cmprsType = some f
  crypt : CryptSupported info
  pkg : info.pkgSize < 2147483648

theorem Staged.decoderOf (h : Staged P info f) (fuel : ℕ) :
    decoderOf P fuel info.cmprsType = some (framedDecoder f) := by
  have hcodec := h.codec
  rw [framedCodec] at hcodec
  split at hcodec
  · rename_i hqlz
    obtain rfl := Option.some.inj hcodec
    rw [hqlz]
    rfl
  split at hcodec
  · rename_i hflz
    obtain rfl := Option.some.inj hcodec
    rw [hflz]
    rfl
  · cases hcodec

end Functions

/-! ## Three packages -/

/-- The FastLZ codec that stores its blocks. -/
def storedBlock (block : List UInt8) : List UInt8 := Codecs.stored.fastlzDecompress block qbootBufSize

end RtThreadOta
