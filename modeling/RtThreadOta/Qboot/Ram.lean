import RtThreadOta.Crc.Crc32
import RtThreadOta.Fal.Partition
import RtThreadOta.Library.Buffer
import RtThreadOta.Library.Cbc
import RtThreadOta.Library.Words

/-!
# What QBoot keeps in memory

The package header `fw_info_t`, the static buffers of `qboot.c`, and the state of the packages it
links: AES, zlib, QuickLZ and FastLZ. Those packages enter as `Codecs`: block decryption and the
decompressors as functions, zlib as a state machine that is fed through `next_in`.
-/

namespace RtThreadOta

open Words

/-! ## The header -/

/-- `fw_info_t` as it lies in memory. -/
abbrev FwInfo := Buffer fwInfoSize

/-- The C string that starts at a byte of the header. -/
def FwInfo.cString (info : FwInfo) (off : ℕ) : List UInt8 :=
  (info.bytes.drop off).takeWhile fun b => decide (b ≠ 0)

/-- `(char *)fw_info->type` -/
def FwInfo.type (info : FwInfo) : List UInt8 := info.cString 0

def FwInfo.algo (info : FwInfo) : ℕ := le16 info.bytes 4

def FwInfo.algo2 (info : FwInfo) : ℕ := le16 info.bytes 6

def FwInfo.timeStamp (info : FwInfo) : ℕ := le32 info.bytes 8

/-- `(char *)fw_info->part_name` -/
def FwInfo.partName (info : FwInfo) : List UInt8 := info.cString 12

/-- `(char *)fw_info->fw_ver` -/
def FwInfo.fwVer (info : FwInfo) : List UInt8 := info.cString 28

def FwInfo.pkgCrc (info : FwInfo) : ℕ := le32 info.bytes 76

def FwInfo.rawCrc (info : FwInfo) : ℕ := le32 info.bytes 80

def FwInfo.rawSize (info : FwInfo) : ℕ := le32 info.bytes 84

def FwInfo.pkgSize (info : FwInfo) : ℕ := le32 info.bytes 88

def FwInfo.hdrCrc (info : FwInfo) : ℕ := le32 info.bytes 92

/-- `fw_info->algo & QBOOT_ALGO_CRYPT_MASK` -/
def FwInfo.cryptType (info : FwInfo) : ℕ := info.algo &&& 0x0F

/-- `fw_info->algo & QBOOT_ALGO_CMPRS_MASK` -/
def FwInfo.cmprsType (info : FwInfo) : ℕ := info.algo &&& 0x0F00

/-- `fw_info->algo2 & QBOOT_ALGO2_VERIFY_MASK` -/
def FwInfo.verifyType (info : FwInfo) : ℕ := info.algo2 &&& 0x0F

/-- `QBOOT_ALGO_CRYPT_NONE` -/
def qbootAlgoCryptNone : ℕ := 0

/-- `QBOOT_ALGO_CRYPT_AES` -/
def qbootAlgoCryptAes : ℕ := 2

/-- `QBOOT_ALGO_CMPRS_NONE` -/
def qbootAlgoCmprsNone : ℕ := 0x000

/-- `QBOOT_ALGO_CMPRS_GZIP` -/
def qbootAlgoCmprsGzip : ℕ := 0x100

/-- `QBOOT_ALGO_CMPRS_QUICKLZ` -/
def qbootAlgoCmprsQuicklz : ℕ := 0x200

/-- `QBOOT_ALGO_CMPRS_FASTLZ` -/
def qbootAlgoCmprsFastlz : ℕ := 0x300

/-- `QBOOT_ALGO2_VERIFY_CRC` -/
def qbootAlgo2VerifyCrc : ℕ := 1

/-! ## The linked packages -/

/-- zlib's `inflate`: from its state, the bytes at `next_in` and `avail_out` to the next state, how
many bytes it used and what it wrote, `none` for an error code. -/
structure Inflater where
  State : Type
  /-- after `inflateInit2` -/
  init : State
  inflate : State → List UInt8 → ℕ → State × ℕ × Option (List UInt8)
  /-- it writes at most `avail_out` bytes -/
  output_le : ∀ s nextIn n out, (inflate s nextIn n).2.2 = some out → out.length ≤ n

/-- The packages the bootloader links. -/
structure Codecs where
  /-- AES-256 block decryption under a key -/
  aesDec : List UInt8 → List UInt8 → List UInt8
  aesDec_length : ∀ key b, (aesDec key b).length = 16
  inflater : Inflater
  /-- `qlz_decompress` on a block; nothing when it fails -/
  qlzDecompress : List UInt8 → List UInt8
  /-- `fastlz_decompress` on a block into at most so many bytes; nothing when it fails -/
  fastlzDecompress : List UInt8 → ℕ → List UInt8
  fastlz_le : ∀ block maxout, (fastlzDecompress block maxout).length ≤ maxout

/-- Packages that pass bytes through unchanged: stored data under trivial codecs. -/
def Codecs.stored : Codecs where
  aesDec _ b := (b ++ List.replicate 16 0).take 16
  aesDec_length _ b := by
    rw [List.length_take, List.length_append, List.length_replicate]
    omega
  inflater :=
    { State := Unit
      init := ()
      inflate := fun _ nextIn n => ((), min nextIn.length n, some (nextIn.take n))
      output_le := fun _ nextIn n out h => by
        cases h
        exact List.length_take_le n nextIn }
  qlzDecompress block := block
  fastlzDecompress block maxout := block.take maxout
  fastlz_le block maxout := List.length_take_le maxout block

/-! ## Static memory -/

/-- `QBOOT_BUF_SIZE` -/
def qbootBufSize : ℕ := 4096

/-- `QBOOT_CMPRS_READ_SIZE` -/
def qbootCmprsReadSize : ℕ := 1024

/-- `QBOOT_CMPRS_BUF_SIZE` -/
def qbootCmprsBufSize : ℕ := 5120

/-- `GZIP_REMAIN_BUF_SIZE` -/
def gzipRemainBufSize : ℕ := 32

/-- `QBOOT_AES_KEY` -/
def qbootAesKey : List UInt8 :=
  ascii ['0', '1', '2', '3', '4', '5', '6', '7', '8', '9', 'A', 'B', 'C', 'D', 'E', 'F',
    '0', '1', '2', '3', '4', '5', '6', '7', '8', '9', 'A', 'B', 'C', 'D', 'E', 'F']

/-- `QBOOT_AES_IV` -/
def qbootAesIv : List UInt8 :=
  ascii ['0', '1', '2', '3', '4', '5', '6', '7', '8', '9', 'A', 'B', 'C', 'D', 'E', 'F']

/-- The static variables of `qboot.c`, `qboot_gzip.c` and `qboot_aes.c`. -/
structure Ram (P : Codecs) where
  fwInfo : FwInfo
  cmprsBuf : Buffer qbootCmprsBufSize
  cryptBuf : Buffer qbootBufSize
  gzipRemainLen : ℕ
  gzipRemainBuf : Buffer gzipRemainBufSize
  /-- `qbt_strm` without its buffers -/
  strm : P.inflater.State
  /-- the bytes at `qbt_strm.next_in` -/
  nextIn : List UInt8
  /-- `qbt_aes_iv` -/
  aesIv : List UInt8

/-- Memory at power-up. -/
def Ram.boot (P : Codecs) : Ram P where
  fwInfo := Buffer.fill _ 0
  cmprsBuf := Buffer.fill _ 0
  cryptBuf := Buffer.fill _ 0
  gzipRemainLen := 0
  gzipRemainBuf := Buffer.fill _ 0
  strm := P.inflater.init
  nextIn := []
  aesIv := List.replicate 16 0

/-- A partition name: a string of its own, or the bytes `fw_info.part_name` points to, which change
with the header. -/
inductive PartName where
  | lit (name : List UInt8)
  | ofFwInfo
deriving DecidableEq, Repr

/-- The name as it reads now. -/
def PartName.get {P : Codecs} (n : PartName) (ram : Ram P) : List UInt8 :=
  match n with
  | lit name => name
  | ofFwInfo => ram.fwInfo.partName

end RtThreadOta
