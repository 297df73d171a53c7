import RtThreadOta.Qboot.Ram

/-!
# The packaging tool (`FirmwarePack.cs`, `Fastlz.cs`, `QuickLZ_DC.cs`)

A package is the 96-byte header `rt_ota_rbl_hdr` and a body: the firmware file, compressed and then
encrypted as asked for. The compressors and the block cipher of the tool enter as `PackCodecs`.
-/

namespace RtThreadOta

open Words

/-! ## The header -/

/-- `rt_ota_rbl_hdr` without its magic and its `info_crc32`. -/
structure RblHdr where
  algo : ℕ
  timestamp : ℕ
  name : List UInt8
  version : List UInt8
  sn : List UInt8
  crc32 : ℕ
  hash : ℕ
  sizeRaw : ℕ
  sizePackage : ℕ
deriving DecidableEq, Repr

/-- A fixed field: the text cut to `n` bytes, or filled up with zeros. -/
def fixedField (n : ℕ) (bs : List UInt8) : List UInt8 :=
  bs.take n ++ List.replicate (n - bs.length) 0

@[simp] theorem fixedField_length (n : ℕ) (bs : List UInt8) : (fixedField n bs).length = n := by
  rw [fixedField, List.length_append, List.length_take, List.length_replicate]
  omega

/-- `StructToBytes` up to `info_crc32`: the 92 bytes that it covers. -/
def RblHdr.covered (h : RblHdr) : List UInt8 :=
  [82, 66, 76, 0] ++ encodeLe32 h.algo ++ encodeLe32 h.timestamp ++ fixedField 16 h.name ++
    fixedField 24 h.version ++ fixedField 24 h.sn ++ encodeLe32 h.crc32 ++ encodeLe32 h.hash ++
    encodeLe32 h.sizeRaw ++ encodeLe32 h.sizePackage

/-- `StructToBytes` of the finished header. -/
def RblHdr.bytes (h : RblHdr) : List UInt8 := h.covered ++ encodeLe32 (crc32Cal h.covered).toNat

@[simp] theorem RblHdr.covered_length (h : RblHdr) : h.covered.length = 92 := by
  simp only [covered, List.length_append, fixedField_length, encodeLe32_length, List.length_cons,
    List.length_nil]

@[simp] theorem RblHdr.bytes_length (h : RblHdr) : h.bytes.length = 96 := by
  simp only [bytes, List.length_append, covered_length, encodeLe32_length]

/-- The header as the bootloader has it in memory. -/
def RblHdr.info (h : RblHdr) : FwInfo := (Buffer.fill fwInfoSize 0).store 0 h.bytes

@[simp] theorem RblHdr.info_bytes (h : RblHdr) : h.info.bytes = h.bytes :=
  Buffer.bytes_store_full _ h.bytes_length

/-- A header in a buffer is the packed one when its bytes are. -/
theorem RblHdr.eq_info {h : RblHdr} {info : FwInfo} (hb : info.bytes = h.bytes) : info = h.info :=
  Buffer.ext_bytes (hb.trans h.info_bytes.symm)

/-- The word `x` stored behind a beginning of `n` bytes. -/
private theorem le32_at (as : List UInt8) {bs rest : List UInt8} {n x : ℕ}
    (hbs : bs = as ++ (encodeLe32 x ++ rest)) (hn : as.length = n) (hx : x < 4294967296) : le32 bs n = x := by
  have h := le32_append_right as (encodeLe32 x ++ rest) 0
  rwa [Nat.add_zero, hn, ← hbs, le32_encodeLe32 hx] at h

section Fields

variable {h : RblHdr}

theorem RblHdr.info_pkgSize (hx : h.sizePackage < 4294967296) : h.info.pkgSize = h.sizePackage := by
  rw [FwInfo.pkgSize, info_bytes]
  exact le32_at ([82, 66, 76, 0] ++ encodeLe32 h.algo ++ encodeLe32 h.timestamp ++
    fixedField 16 h.name ++ fixedField 24 h.version ++ fixedField 24 h.sn ++ encodeLe32 h.crc32 ++
    encodeLe32 h.hash ++ encodeLe32 h.sizeRaw)
    (by simp only [bytes, covered, List.append_assoc]; rfl) (by simp) hx

theorem RblHdr.info_rawSize (hx : h.sizeRaw < 4294967296) : h.info.rawSize = h.sizeRaw := by
  rw [FwInfo.rawSize, info_bytes]
  exact le32_at ([82, 66, 76, 0] ++ encodeLe32 h.algo ++ encodeLe32 h.timestamp ++
    fixedField 16 h.name ++ fixedField 24 h.version ++ fixedField 24 h.sn ++ encodeLe32 h.crc32 ++
    encodeLe32 h.hash) (by simp only [bytes, covered, List.append_assoc]; rfl) (by simp) hx

theorem RblHdr.info_rawCrc (hx : h.hash < 4294967296) : h.info.rawCrc = h.hash := by
  rw [FwInfo.rawCrc, info_bytes]
  exact le32_at ([82, 66, 76, 0] ++ encodeLe32 h.algo ++ encodeLe32 h.timestamp ++
    fixedField 16 h.name ++ fixedField 24 h.version ++ fixedField 24 h.sn ++ encodeLe32 h.crc32)
    (by simp only [bytes, covered, List.append_assoc]; rfl) (by simp) hx

theorem RblHdr.info_pkgCrc (hx : h.crc32 < 4294967296) : h.info.pkgCrc = h.crc32 := by
  rw [FwInfo.pkgCrc, info_bytes]
  exact le32_at ([82, 66, 76, 0] ++ encodeLe32 h.algo ++ encodeLe32 h.timestamp ++
    fixedField 16 h.name ++ fixedField 24 h.version ++ fixedField 24 h.sn)
    (by simp only [bytes, covered, List.append_assoc]; rfl) (by simp) hx

theorem RblHdr.info_timeStamp (hx : h.timestamp < 4294967296) : h.info.timeStamp = h.timestamp := by
  rw [FwInfo.timeStamp, info_bytes]
  exact le32_at ([82, 66, 76, 0] ++ encodeLe32 h.algo)
    (by simp only [bytes, covered, List.append_assoc]; rfl) (by simp) hx

theorem RblHdr.info_hdrCrc : h.info.hdrCrc = (crc32Cal h.covered).toNat := by
  have hb : h.bytes = h.covered ++ (encodeLe32 (crc32Cal h.covered).toNat ++ []) := by
    rw [List.append_nil, bytes]
  rw [FwInfo.hdrCrc, info_bytes]
  exact le32_at h.covered hb h.covered_length (UInt32.toNat_lt _)

/-- The low half of the tool's `algo` is the bootloader's. -/
theorem RblHdr.info_algo : h.info.algo = h.algo % 65536 := by
  have hb : h.bytes = [82, 66, 76, 0] ++ (encodeLe32 h.algo ++ (encodeLe32 h.timestamp ++
      fixedField 16 h.name ++ fixedField 24 h.version ++ fixedField 24 h.sn ++ encodeLe32 h.crc32 ++
      encodeLe32 h.hash ++ encodeLe32 h.sizeRaw ++ encodeLe32 h.sizePackage ++
      encodeLe32 (crc32Cal h.covered).toNat)) := by
    simp only [bytes, covered, List.append_assoc]
  rw [FwInfo.algo, info_bytes, hb]
  simp only [le16, byteAt, encodeLe32, List.cons_append, List.nil_append, List.getD_cons_succ,
    List.getD_cons_zero, UInt8.toNat_ofNat']
  omega

/-- The high half of the tool's `algo` is the bootloader's `algo2`. -/
theorem RblHdr.info_algo2 (hx : h.algo < 4294967296) : h.info.algo2 = h.algo / 65536 := by
  have hb : h.bytes = [82, 66, 76, 0] ++ (encodeLe32 h.algo ++ (encodeLe32 h.timestamp ++
      fixedField 16 h.name ++ fixedField 24 h.version ++ fixedField 24 h.sn ++ encodeLe32 h.crc32 ++
      encodeLe32 h.hash ++ encodeLe32 h.sizeRaw ++ encodeLe32 h.sizePackage ++
      encodeLe32 (crc32Cal h.covered).toNat)) := by
    simp only [bytes, covered, List.append_assoc]
  rw [FwInfo.algo2, info_bytes, hb]
  simp only [le16, byteAt, encodeLe32, List.cons_append, List.nil_append, List.getD_cons_succ,
    List.getD_cons_zero, UInt8.toNat_ofNat']
  omega

theorem RblHdr.info_type : h.info.type = ascii ['R', 'B', 'L'] := by
  have hb : h.bytes = 82 :: 66 :: 76 :: 0 :: (h.bytes.drop 4) := by
    simp only [bytes, covered, List.cons_append, List.nil_append, List.drop_succ_cons,
      List.drop_zero]
  rw [FwInfo.type, FwInfo.cString, info_bytes, hb]
  rfl

/-- A name that fits with its terminator is read back. -/
theorem RblHdr.info_partName (hlen : h.name.length < 16) (hname : ∀ b ∈ h.name, b ≠ 0) :
    h.info.partName = h.name := by
  have hb : h.bytes = ([82, 66, 76, 0] ++ encodeLe32 h.algo ++ encodeLe32 h.timestamp) ++
      (h.name ++ 0 :: (List.replicate (15 - h.name.length) 0 ++ (fixedField 24 h.version ++
        fixedField 24 h.sn ++ encodeLe32 h.crc32 ++ encodeLe32 h.hash ++ encodeLe32 h.sizeRaw ++
        encodeLe32 h.sizePackage ++ encodeLe32 (crc32Cal h.covered).toNat))) := by
    have hf : fixedField 16 h.name =
        h.name ++ 0 :: List.replicate (15 - h.name.length) 0 := by
      rw [fixedField, List.take_of_length_le (by omega), ← List.replicate_succ]
      congr 2
      omega
    simp only [bytes, covered, hf, List.append_assoc, List.cons_append]
  rw [FwInfo.partName, FwInfo.cString, info_bytes, hb, List.drop_left' (by simp)]
  rw [List.takeWhile_append_of_pos fun b hb => decide_eq_true (hname b hb)]
  simp

/-- The bootloader accepts every header the tool writes. -/
theorem RblHdr.infoCheck_parts : h.info.type = ascii ['R', 'B', 'L'] ∧
    (crc32Cal (h.info.bytes.take 92)).toNat = h.info.hdrCrc := by
  refine ⟨info_type, ?_⟩
  rw [info_hdrCrc, info_bytes, bytes, List.take_left' h.covered_length]

end Fields

/-! ## The body -/

/-- The compressors and the cipher of the tool. -/
structure PackCodecs where
  /-- AES-256 block encryption under a key -/
  aesEnc : List UInt8 → List UInt8 → List UInt8
  aesEnc_length : ∀ key b, (aesEnc key b).length = 16
  qlzCompress : List UInt8 → List UInt8
  fastlzCompress : List UInt8 → List UInt8
  gzip : List UInt8 → List UInt8

/-- `FileStreamToByte` with padding: up to the next multiple of 16, at least one byte, each byte the
number of bytes added. -/
def padded (file : List UInt8) : List UInt8 :=
  let num := 16 - file.length % 16
  file ++ List.replicate num (UInt8.ofNat num)

/-- `Crypt`: AES-256-CBC of the padded bytes under the tool's key and IV. -/
def crypt (K : PackCodecs) (key iv : List UInt8) (readFile : List UInt8) : List UInt8 :=
  (Cbc.encrypt (K.aesEnc key) 16 ((padded readFile).length / 16) iv (padded readFile)).1

/-- `Fastlz.Compress` and `QuickLZ_DC.Compress`: chunks of 4096 bytes, each compressed and written
behind its compressed length. The fuel is the number of bytes left. -/
def compressChunks (compress : List UInt8 → List UInt8) : (left : ℕ) → List UInt8 → List UInt8
  | 0, _ => []
  | _ + 1, [] => []
  | left + 1, b :: bs =>
    let chunk := (b :: bs).take 4096
    encodeBe32 (compress chunk).length ++ compress chunk ++
      compressChunks compress left ((b :: bs).drop 4096)

/-- The choices of the two combo boxes. -/
inductive Compression where
  | none
  | quicklz
  | fastlz
  | gzip
deriving DecidableEq, Repr

/-- `todoCmprsMsCryptMs`: the compressed file. -/
def compressFile (K : PackCodecs) (file : List UInt8) : Compression → List UInt8
  | .none => file
  | .quicklz => compressChunks K.qlzCompress file.length file
  | .fastlz => compressChunks K.fastlzCompress file.length file
  | .gzip => K.gzip file

/-- `rbl_hdr.algo` as `todoCmprsMsCryptMs` sets it. -/
def packAlgo : Compression → Bool → ℕ
  | .none, false => 0
  | .quicklz, false => 512
  | .fastlz, false => 768
  | .gzip, false => 256
  | .none, true => 2
  | .quicklz, true => 514
  | .fastlz, true => 770
  | .gzip, true => 258

/-- `todoCmprsMsCryptMs`: the body of the package. -/
def packBody (K : PackCodecs) (key iv : List UInt8) (c : Compression) (encrypt : Bool)
    (file : List UInt8) : List UInt8 :=
  if encrypt then crypt K key iv (compressFile K file c) else compressFile K file c

/-- What the user enters besides the file: the names and the texts of the header. -/
structure PackInfo where
  name : List UInt8
  version : List UInt8
  sn : List UInt8
  timestamp : ℕ
  hash : ℕ

/-- The header `btnCreate_Click` writes. -/
def packHdr (K : PackCodecs) (key iv : List UInt8) (c : Compression) (encrypt : Bool)
    (info : PackInfo) (file : List UInt8) : RblHdr where
  algo := packAlgo c encrypt
  timestamp := info.timestamp
  name := info.name
  version := info.version
  sn := info.sn
  crc32 := (crc32Cal (packBody K key iv c encrypt file)).toNat
  hash := info.hash
  sizeRaw := file.length
  sizePackage := (packBody K key iv c encrypt file).length

theorem padded_length (file : List UInt8) :
    (padded file).length = (file.length / 16 + 1) * 16 := by
  rw [padded, List.length_append, List.length_replicate]
  omega

theorem crypt_length (K : PackCodecs) (key iv readFile : List UInt8) :
    (crypt K key iv readFile).length = (readFile.length / 16 + 1) * 16 := by
  rw [crypt, Cbc.encrypt_fst_length (K.aesEnc_length key), padded_length,
    Nat.mul_div_cancel _ (by omega)]

end RtThreadOta
