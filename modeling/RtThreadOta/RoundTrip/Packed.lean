import RtThreadOta.Qboot.BootFlow
import RtThreadOta.Qboot.Programs

/-!
# Packages of the packaging tool in a partition

What the bootloader reads from a package that the tool made: its header accepts the checks, its sizes
are those of the file and the body, and the decrypted body is the compressed file, padded when it was
encrypted.
-/

namespace RtThreadOta

open Interaction Nor Words

variable {L : Layout} {P : Codecs} {K : PackCodecs} {dst src : FalPartition} {ram : Ram P}
  {dstName srcName : PartName} {c : Compression} {encrypt : Bool} {pi : PackInfo}
  {file : List UInt8} {m : Flash}

/-- The header of a package packed with the bootloader's key and IV. -/
def toolHdr (K : PackCodecs) (c : Compression) (encrypt : Bool) (pi : PackInfo)
    (file : List UInt8) : RblHdr :=
  packHdr K qbootAesKey qbootAesIv c encrypt pi file

/-- The body of that package. -/
def toolBody (K : PackCodecs) (c : Compression) (encrypt : Bool) (file : List UInt8) : List UInt8 :=
  packBody K qbootAesKey qbootAesIv c encrypt file

/-- Block decryption inverts block encryption under the key. -/
def CipherInverts (P : Codecs) (K : PackCodecs) : Prop :=
  ∀ b, b.length = 16 → P.aesDec qbootAesKey (K.aesEnc qbootAesKey b) = b

/-- A file's package lies in the source partition, its header was read, and the file fits into the
target in front of a header. -/
structure Packed (L : Layout) (dst src : FalPartition) (dstName srcName : PartName) (K : PackCodecs)
    (c : Compression) (encrypt : Bool) (pi : PackInfo) (file : List UInt8) (ram : Ram P)
    (m : Flash) : Prop where
  dst_find : falPartitionFind L (dstName.get ram) = some dst
  src_find : falPartitionFind L (srcName.get ram) = some src
  ne : dst ≠ src
  fits : fwInfoSize + (toolBody K c encrypt file).length ≤ src.len
  stored : src.bytes m 0 (fwInfoSize + (toolBody K c encrypt file).length) =
    (toolHdr K c encrypt pi file).bytes ++ toolBody K c encrypt file
  fwInfo : ram.fwInfo = (toolHdr K c encrypt pi file).info
  file_pos : 0 < file.length
  file_fits : file.length ≤ dst.tail

/-- The compression type of the combo box. -/
def Compression.cmprsType : Compression → ℕ
  | .none => qbootAlgoCmprsNone
  | .quicklz => qbootAlgoCmprsQuicklz
  | .fastlz => qbootAlgoCmprsFastlz
  | .gzip => qbootAlgoCmprsGzip

theorem toolHdr_algo : (toolHdr K c encrypt pi file).algo = packAlgo c encrypt := rfl

theorem toolHdr_cryptType : (toolHdr K c encrypt pi file).info.cryptType =
    if encrypt then qbootAlgoCryptAes else qbootAlgoCryptNone := by
  rw [FwInfo.cryptType, RblHdr.info_algo, toolHdr_algo]
  cases c <;> cases encrypt <;> decide

theorem toolHdr_cmprsType : (toolHdr K c encrypt pi file).info.cmprsType = c.cmprsType := by
  rw [FwInfo.cmprsType, RblHdr.info_algo, toolHdr_algo]
  cases c <;> cases encrypt <;> decide

theorem toolHdr_algo_lt : (toolHdr K c encrypt pi file).algo < 65536 := by
  rw [toolHdr_algo]
  cases c <;> cases encrypt <;> decide

/-- The tool asks for no check of the application. -/
theorem toolHdr_verifyType : (toolHdr K c encrypt pi file).info.verifyType ≠
    qbootAlgo2VerifyCrc := by
  have hlt : (toolHdr K c encrypt pi file).algo < 65536 := toolHdr_algo_lt
  rw [FwInfo.verifyType, RblHdr.info_algo2 (by omega), Nat.div_eq_of_lt hlt]
  decide

/-- The bootloader accepts the tool's headers. -/
theorem RblHdr.infoCheck (h : RblHdr) : qbtFwInfoCheck h.info = true := by
  obtain ⟨htype, hcrc⟩ := RblHdr.infoCheck_parts (h := h)
  rw [qbtFwInfoCheck, decide_eq_true htype, decide_eq_true hcrc, Bool.and_self]

/-- An encrypted body is the compressed file padded to whole blocks, at least by one byte. -/
theorem toolBody_aes_length : (toolBody K c true file).length =
    ((compressFile K file c).length / 16 + 1) * 16 := crypt_length K _ _ _

namespace Packed

theorem src_mem (h : Packed L dst src dstName srcName K c encrypt pi file ram m) : src ∈ L.parts :=
  mem_of_find h.src_find

theorem dst_mem (h : Packed L dst src dstName srcName K c encrypt pi file ram m) : dst ∈ L.parts :=
  mem_of_find h.dst_find

theorem pkgSize (h : Packed L dst src dstName srcName K c encrypt pi file ram m) :
    (toolHdr K c encrypt pi file).info.pkgSize = (toolBody K c encrypt file).length := by
  have hlen := L.len_lt h.src_mem
  have hfits := h.fits
  have hlt : (toolHdr K c encrypt pi file).sizePackage < 4294967296 := by
    show (toolBody K c encrypt file).length < 4294967296
    omega
  exact RblHdr.info_pkgSize hlt

theorem rawSize (h : Packed L dst src dstName srcName K c encrypt pi file ram m) :
    (toolHdr K c encrypt pi file).info.rawSize = file.length := by
  have hlen := L.len_lt h.dst_mem
  have htail := Layout.tail_add h.dst_mem
  have hfits := h.file_fits
  have hlt : (toolHdr K c encrypt pi file).sizeRaw < 4294967296 := by
    show file.length < 4294967296
    omega
  exact RblHdr.info_rawSize hlt

/-- The body as it lies in the source partition. -/
theorem body (h : Packed L dst src dstName srcName K c encrypt pi file ram m) :
    src.body m (toolHdr K c encrypt pi file).info = toolBody K c encrypt file := by
  have hstored := congrArg (List.drop fwInfoSize) h.stored
  have hhdr : (toolHdr K c encrypt pi file).bytes.length = fwInfoSize := RblHdr.bytes_length _
  rw [List.drop_left' hhdr] at hstored
  rw [FalPartition.bytes, Nor.read_drop _ _ _ (Nat.le_add_right _ _), Nat.add_zero,
    Nat.add_sub_cancel_left] at hstored
  rw [FalPartition.body, h.pkgSize]
  exact hstored

/-- Decrypting the body gives the compressed file, padded when it was encrypted. -/
theorem plain (h : Packed L dst src dstName srcName K c encrypt pi file ram m)
    (hinv : encrypt = true → CipherInverts P K) : src.plain P m (toolHdr K c encrypt pi file).info =
      if encrypt then padded (compressFile K file c) else compressFile K file c := by
  rw [FalPartition.plain, h.body, toolHdr_cryptType, plaintext, toolBody, packBody]
  cases encrypt with
  | false => rfl
  | true =>
    have hne : ¬ qbootAlgoCryptAes = qbootAlgoCryptNone := by decide
    have hlen := padded_length (compressFile K file c)
    simp only [if_true]
    rw [if_neg hne, crypt_length, Nat.mul_div_cancel _ (by omega), crypt, hlen,
      Nat.mul_div_cancel _ (by omega)]
    exact Cbc.decrypt_encrypt (K.aesEnc_length _) (hinv rfl) _ rfl hlen

/-- The package can be released. -/
theorem releasable (h : Packed L dst src dstName srcName K c encrypt pi file ram m) :
    Releasable L dst src dstName srcName ram (toolHdr K c encrypt pi file).info where
  dst_find := h.dst_find
  src_find := h.src_find
  ne := h.ne
  fwInfo := h.fwInfo
  crypt := by
    rw [CryptSupported, toolHdr_cryptType]
    cases encrypt
    · exact Or.inl rfl
    · exact Or.inr rfl
  aes haes := by
    rw [h.pkgSize]
    rw [toolHdr_cryptType] at haes
    cases encrypt with
    | false => cases haes
    | true =>
      show 16 ∣ (crypt K qbootAesKey qbootAesIv (compressFile K file c)).length
      rw [crypt_length]
      exact Nat.dvd_mul_left _ _
  pkg := by
    have hlen := L.len_lt h.src_mem
    have hfits := h.fits
    rw [h.pkgSize]
    omega
  raw := by
    have htail := Layout.tail_add h.dst_mem
    have hfits := h.file_fits
    rw [h.rawSize]
    omega

end Packed

/-! ## Packages on the board -/

/-- What a partition holds is read back. -/
theorem FalPartition.bytes_holding (p : FalPartition) (bs : List UInt8) :
    p.bytes (p.holding bs) 0 bs.length = bs := by
  refine Nor.read_eq_iff_getElem.2 fun i hi => ?_
  rw [FalPartition.holding, if_pos ⟨rfl, by omega⟩, List.getD_eq_getElem _ _ (by omega)]
  congr 1
  omega

/-- Compressors and a cipher that pass bytes through unchanged. -/
def PackCodecs.stored : PackCodecs where
  aesEnc _ b := (b ++ List.replicate 16 0).take 16
  aesEnc_length := Codecs.stored.aesDec_length
  qlzCompress b := b
  fastlzCompress b := b
  gzip b := b

theorem cipherInverts_stored : CipherInverts Codecs.stored PackCodecs.stored := by
  intro b hb
  simp only [Codecs.stored, PackCodecs.stored]
  rw [List.take_left' hb, List.take_left' hb]

/-- The board right after the header of a package in the download partition was read. -/
def headerRead (P : Codecs) (hdr : RblHdr) : Ram P := { Ram.boot P with fwInfo := hdr.info }

/-- The flash of the board with a package in the download partition. -/
def downloaded (K : PackCodecs) (c : Compression) (encrypt : Bool) (pi : PackInfo)
    (file : List UInt8) : Flash :=
  downloadPart.holding ((toolHdr K c encrypt pi file).bytes ++ toolBody K c encrypt file)

/-- A downloaded package for another partition of the board. -/
theorem packed_board (hdst : falPartitionFind falPartTable (dstName.get ram) = some dst)
    (hne : dst ≠ downloadPart) (hfw : ram.fwInfo = (toolHdr K c encrypt pi file).info)
    (hpos : 0 < file.length) (hfits : file.length ≤ dst.tail)
    (hbody : (toolBody K c encrypt file).length ≤ 1048480) :
    Packed falPartTable dst downloadPart dstName (.lit qbootDownloadPartName) K c encrypt pi file ram
      (downloaded K c encrypt pi file) where
  dst_find := hdst
  src_find := by
    show falPartitionFind falPartTable qbootDownloadPartName = some downloadPart
    decide
  ne := hne
  fits := by
    show 96 + _ ≤ 1048576
    omega
  stored := by
    have hlen : fwInfoSize + (toolBody K c encrypt file).length =
        ((toolHdr K c encrypt pi file).bytes ++ toolBody K c encrypt file).length := by
      rw [List.length_append, RblHdr.bytes_length]
      rfl
    rw [hlen]
    exact FalPartition.bytes_holding _ _
  fwInfo := hfw
  file_pos := hpos
  file_fits := hfits

/-- A downloaded package for the app partition. -/
theorem packed_downloaded (hpos : 0 < file.length) (hfits : file.length ≤ 393120)
    (hbody : (toolBody K c encrypt file).length ≤ 1048480) :
    Packed falPartTable appPart downloadPart (.lit qbootAppPartName) (.lit qbootDownloadPartName)
      K c encrypt pi file (headerRead P (toolHdr K c encrypt pi file))
      (downloaded K c encrypt pi file) := by
  refine packed_board ?_ (by decide) rfl hpos hfits hbody
  show falPartitionFind falPartTable qbootAppPartName = some appPart
  decide

end RtThreadOta
