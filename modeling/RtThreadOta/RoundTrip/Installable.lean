import RtThreadOta.Qboot.Success
import RtThreadOta.RoundTrip.Framed
import RtThreadOta.RoundTrip.Gzip

/-!
# Packages that can be installed

`Installable` is what a boot asks of the package in the download partition to put an application in place
and start it. What the tool makes of an application is such a package under every choice of the two combo
boxes, where the bootloader inverts the codecs and what is written ends in front of the header.
-/

namespace RtThreadOta

open Interaction Nor Words

variable {L : Layout} {P : Codecs} {K : PackCodecs} {dst src : FalPartition} {ram : Ram P}
  {dstName srcName : PartName} {c : Compression} {encrypt : Bool} {pi : PackInfo}
  {file : List UInt8} {fuel : ℕ} {m m₀ : Flash} {s : Board}

/-! ## What a boot asks for -/

/-- The partitions that the boot flow works with. -/
structure BootParts (L : Layout) (dst src : FalPartition) : Prop where
  app : falPartitionFind L qbootAppPartName = some dst
  download : falPartitionFind L qbootDownloadPartName = some src
  /-- the application is started where its partition is -/
  dev : dst.dev = .onchip
  base : dst.base = qbootAppAddr

/-- The first `raw_size` bytes of what the package decodes to. -/
def packageImage (P : Codecs) (fuel : ℕ) (src : FalPartition) (m : Flash) : List UInt8 :=
  (releaseDrive P fuel src m (src.info m 0)).out.take (src.info m 0).rawSize

/-- A stored package of an application that can be installed: it is accepted, decodes to an image that
fits in front of the header, and the image is one that `qbt_jump_to_app` starts. -/
structure Installable (L : Layout) (P : Codecs) (fuel : ℕ) (dst src : FalPartition) (m : Flash) :
    Prop where
  accepted : Accepts L calmEnv fuel qbootDownloadPartName (Ram.boot P) (Board.powerUp m)
  forApp : (src.info m 0).partName = qbootAppPartName
  crypt : CryptSupported (src.info m 0)
  aes : (src.info m 0).cryptType = qbootAlgoCryptAes → 16 ∣ (src.info m 0).pkgSize
  reached : (releaseDrive P fuel src m (src.info m 0)).fin = .reached
  puts : ∀ bs ∈ (releaseDrive P fuel src m (src.info m 0)).puts, bs ≠ []
  enough : (src.info m 0).rawSize ≤ (releaseDrive P fuel src m (src.info m 0)).out.length
  fits : (releaseDrive P fuel src m (src.info m 0)).out.length ≤ dst.tail
  erased : (releaseDrive P fuel src m (src.info m 0)).out.length ≤
    eraseStop L dst (src.info m 0).rawSize
  crc : (src.info m 0).verifyType = qbootAlgo2VerifyCrc →
    (crc32Cal (packageImage P fuel src m)).toNat = (src.info m 0).rawCrc
  words : 8 ≤ (src.info m 0).rawSize
  starts : legitimateApp (le32 (packageImage P fuel src m) 0) (le32 (packageImage P fuel src m) 4) =
    true
  fuel_le : (src.info m 0).rawSize + 4095 < fuel * qbootBufSize

theorem BootParts.dst_mem (hb : BootParts L dst src) : dst ∈ L.parts := mem_of_find hb.app

theorem BootParts.src_mem (hb : BootParts L dst src) : src ∈ L.parts := mem_of_find hb.download

theorem BootParts.ne (hb : BootParts L dst src) : dst ≠ src := by
  rintro rfl
  have hname := (name_of_find hb.app).symm.trans (name_of_find hb.download)
  exact absurd hname (by decide)

theorem Installable.stored (h : Installable L P fuel dst src m₀) (hb : BootParts L dst src) :
    WellStored src m₀ := h.accepted.wellStored calmEnv_calm hb.download

/-! ## What the packages of the tool decode to -/

/-- The decoded bytes begin with the file, and what is written ends in front of the header and where the
target is erased. -/
structure Restores (L : Layout) (dst : FalPartition) (file : List UInt8) (T : Trace) : Prop where
  reached : T.fin = .reached
  puts : ∀ bs ∈ T.puts, bs ≠ []
  begins : T.out.take file.length = file
  fits : T.out.length ≤ dst.tail
  erased : T.out.length ≤ eraseStop L dst file.length

/-- What the arm of a framed codec relies on: it is inverted, and every read fits behind the residue. -/
structure FramedFits (P : Codecs) (K : PackCodecs) (encrypt : Bool) (file : List UInt8)
    (f : FramedCodec) : Prop where
  inverts : Inverts (f.compress K) (f.decompress P) f.outBuf
  blocks : BlocksFit (blockLens (f.compress K) (fileChunks file.length file)) 0
    (toolBody K f.compression encrypt file).length

/-- What the release relies on for a choice of the compression. -/
def Restorable (P : Codecs) (K : PackCodecs) (dst : FalPartition) (encrypt : Bool)
    (file : List UInt8) : Compression → Prop
  | .none => PaddingFits dst encrypt file
  | .quicklz => FramedFits P K encrypt file .quicklz
  | .fastlz => FramedFits P K encrypt file .fastlz
  | .gzip => ∃ At, Inflates P.inflater (K.gzip file) file At

section Restores

variable (hinv : encrypt = true → CipherInverts P K)

include hinv

theorem uncompressed_restores
    (h : Packed L dst src dstName srcName K .none encrypt pi file ram s.flash)
    (hpad : PaddingFits dst encrypt file) (hfuel : file.length < fuel) :
    Restores L dst file (releaseDrive P fuel src s.flash (toolHdr K .none encrypt pi file).info) := by
  have hd : decoderOf P fuel (toolHdr K .none encrypt pi file).info.cmprsType = some noneDecoder := by
    rw [toolHdr_cmprsType]
    rfl
  obtain ⟨hfin, hout, -, hputs⟩ := uncompressed_drive hinv h hfuel (releaseDrive_eq hd s.flash)
  obtain ⟨hfit, herased⟩ := storedPlain_fits (L := L) h.file_fits hpad
  rw [← hout] at hfit herased
  refine ⟨hfin, hputs, ?_, hfit, herased⟩
  have hle : file.length ≤ roundUp file.length qbootCmprsReadSize := le_roundUp _ (Nat.succ_pos _)
  rw [hout, List.take_take, Nat.min_eq_left hle]
  cases encrypt with
  | false => exact List.take_length
  | true => exact List.take_left' rfl

theorem framed_restores {f : FramedCodec}
    (h : Packed L dst src dstName srcName K f.compression encrypt pi file ram s.flash)
    (hfits : FramedFits P K encrypt file f)
    (hfuel : (toolBody K f.compression encrypt file).length + 2 ≤ fuel) :
    Restores L dst file
      (releaseDrive P fuel src s.flash (toolHdr K f.compression encrypt pi file).info) := by
  have hd : decoderOf P fuel (toolHdr K f.compression encrypt pi file).info.cmprsType =
      some (framedDecoder (f.decompress P)) := by
    rw [toolHdr_cmprsType]
    cases f <;> rfl
  obtain ⟨hfin, hout, -, hputs⟩ :=
    (framed_drive hinv hfits.inverts h hfuel (releaseDrive_eq hd s.flash)).1 hfits.blocks
  refine ⟨hfin, hputs, ?_, ?_, ?_⟩
  · rw [hout, List.take_length]
  · rw [hout]
    exact h.file_fits
  · rw [hout]
    exact le_eraseStop L dst file.length

theorem gzip_restores (h : Packed L dst src dstName srcName K .gzip encrypt pi file ram s.flash)
    {At : P.inflater.State → ℕ → ℕ → Prop} (hI : Inflates P.inflater (K.gzip file) file At)
    (hfuel : (toolBody K .gzip encrypt file).length + file.length + 2 ≤ fuel) :
    Restores L dst file (releaseDrive P fuel src s.flash (toolHdr K .gzip encrypt pi file).info) := by
  have hdst := h.dst_mem
  have htail := Layout.tail_add hdst
  have hlen := L.len_lt hdst
  have hfile := h.file_fits
  have hbody := h.fits
  have hd : decoderOf P fuel (toolHdr K .gzip encrypt pi file).info.cmprsType =
      some (gzipDecoder P.inflater fuel) := by
    rw [toolHdr_cmprsType]
    rfl
  -- behind the stream there may be the padding of an encrypted one
  obtain ⟨junk, hjunk, hplainLen⟩ : ∃ junk, src.plain P s.flash
      (toolHdr K .gzip encrypt pi file).info = (K.gzip file).drop 0 ++ junk ∧
      (src.plain P s.flash (toolHdr K .gzip encrypt pi file).info).length =
        (toolBody K .gzip encrypt file).length := by
    rw [h.plain hinv]
    cases encrypt with
    | false => exact ⟨[], (List.append_nil _).symm, rfl⟩
    | true =>
      refine ⟨_, rfl, ?_⟩
      rw [if_pos rfl, padded_length, toolBody_aes_length]
  have hinit : (gzipDecoder P.inflater fuel).init = (P.inflater.init, held file 0) := by
    rw [held, Nat.zero_sub, List.take_zero]
    rfl
  have hdrive := @releaseDrive_eq P src fuel _ _ hd s.flash
  rw [h.rawSize] at hdrive
  obtain ⟨hfin, hout, hputs, -⟩ := gzipDecoder_drive hI (by omega) hinit hI.init
    (Nat.zero_le _) (Nat.zero_le _) hjunk (by rfl : 0 = whole 0) (by omega) (by omega) (by omega)
    hdrive
  have hout' : gzipOut file 0 = file ++
      List.replicate (roundUp file.length gzipRemainBufSize - file.length) 0xFF := rfl
  have hround := le_roundUp file.length (k := gzipRemainBufSize) (Nat.succ_pos _)
  have houtLen : (gzipOut file 0).length = roundUp file.length gzipRemainBufSize := by
    rw [hout', List.length_append, List.length_replicate]
    omega
  refine ⟨hfin, hputs, ?_, ?_, ?_⟩
  · rw [hout, hout', List.take_left' rfl]
  · rw [hout, houtLen]
    exact roundUp_le_of_dvd (Nat.succ_pos _) hfile (dvd_tail hdst)
  · rw [hout, houtLen]
    exact roundUp_le_of_dvd (Nat.succ_pos _) (le_eraseStop L dst _)
      (Nat.dvd_trans ⟨128, rfl⟩ (dvd_eraseStop L dst _))

/-- **What a package of the tool decodes to**: the file, under every choice of the combo boxes. -/
theorem Packed.restores (h : Packed L dst src dstName srcName K c encrypt pi file ram s.flash)
    (hre : Restorable P K dst encrypt file c)
    (hfuel : (toolBody K c encrypt file).length + file.length + 2 ≤ fuel) :
    Restores L dst file (releaseDrive P fuel src s.flash (toolHdr K c encrypt pi file).info) := by
  cases c with
  | none => exact uncompressed_restores hinv h hre (by omega)
  | quicklz =>
    have hbody : (toolBody K .quicklz encrypt file).length + 2 ≤ fuel := by omega
    exact framed_restores (f := .quicklz) hinv h hre hbody
  | fastlz =>
    have hbody : (toolBody K .fastlz encrypt file).length + 2 ≤ fuel := by omega
    exact framed_restores (f := .fastlz) hinv h hre hbody
  | gzip =>
    obtain ⟨At, hI⟩ := hre
    exact gzip_restores hinv h hI hfuel

end Restores

/-! ## Packages of an application -/

/-- The package of an application lies in the download partition. -/
structure Shipped (dst src : FalPartition) (K : PackCodecs) (c : Compression) (encrypt : Bool)
    (pi : PackInfo) (file : List UInt8) (m : Flash) : Prop where
  forApp : pi.name = qbootAppPartName
  fits : fwInfoSize + (toolBody K c encrypt file).length ≤ src.len
  stored : src.bytes m 0 (fwInfoSize + (toolBody K c encrypt file).length) =
    (toolHdr K c encrypt pi file).bytes ++ toolBody K c encrypt file
  words : 8 ≤ file.length
  file_fits : file.length ≤ dst.tail
  starts : legitimateApp (le32 file 0) (le32 file 4) = true

section Shipped

variable (hb : BootParts L dst src) (h : Shipped dst src K c encrypt pi file m)

include h

theorem Shipped.partName : (toolHdr K c encrypt pi file).info.partName = qbootAppPartName := by
  have hname : (toolHdr K c encrypt pi file).name = qbootAppPartName := h.forApp
  rw [RblHdr.info_partName, hname]
  · rw [hname]
    decide
  · rw [hname]
    decide +kernel

include hb

theorem Shipped.packed {ram : Ram P} (hfw : ram.fwInfo = (toolHdr K c encrypt pi file).info) :
    Packed L dst src .ofFwInfo (.lit qbootDownloadPartName) K c encrypt pi file ram m where
  dst_find := by
    rw [PartName.get, hfw, h.partName]
    exact hb.app
  src_find := hb.download
  ne := hb.ne
  fits := h.fits
  stored := h.stored
  fwInfo := hfw
  file_pos := Nat.lt_of_lt_of_le (Nat.succ_pos 7) h.words
  file_fits := h.file_fits

/-- The header that the package begins with. -/
theorem Shipped.packed_header :
    Packed L dst src .ofFwInfo (.lit qbootDownloadPartName) K c encrypt pi file
      (headerRead P (toolHdr K c encrypt pi file)) m :=
  h.packed hb rfl

/-- It is accepted: the tool asks for no check of what it decodes to. -/
theorem Shipped.accepted {s : Board} (hs : s.flash = m)
    (hfuel : (toolBody K c encrypt file).length + 4095 < fuel * qbootBufSize) :
    Accepts L calmEnv fuel qbootDownloadPartName (Ram.boot P) s := by
  subst hs
  have hp := h.packed_header (P := P) hb
  have hpkg := hp.pkgSize
  have hfits := h.fits
  rw [← hpkg] at hfits hfuel
  obtain ⟨⟨ram', ok⟩, s', hrun, hok, -⟩ := Prog.run_done_of_wp
    (wp_qbtFwCheck_unverified calmEnv_calm hb.download hp.info_eq
      (RblHdr.infoCheck _) toolHdr_verifyType hfits hp.bodyCrc hfuel)
  dsimp only at hok
  subst hok
  exact ⟨ram', s', hrun⟩

variable (hinv : encrypt = true → CipherInverts P K) (hre : Restorable P K dst encrypt file c)
  (hfuel : (toolBody K c encrypt file).length + file.length + 2 ≤ fuel)

include hinv hre hfuel

theorem Shipped.restores :
    Restores L dst file (releaseDrive P fuel src m (toolHdr K c encrypt pi file).info) :=
  (h.packed_header hb).restores (s := Board.powerUp m) hinv hre hfuel

/-- Its image is the file. -/
theorem Shipped.packageImage_eq : packageImage P fuel src m = file := by
  have hp := h.packed_header (P := P) hb
  rw [packageImage, hp.info_eq, hp.rawSize]
  exact (h.restores hb hinv hre hfuel).begins

/-- **What the tool makes of an application can be installed.** -/
theorem Shipped.installable : Installable L P fuel dst src m := by
  have hp := h.packed_header (P := P) hb
  have hinfo := hp.info_eq
  have hraw := hp.rawSize
  have hrestores := h.restores hb hinv hre hfuel
  have himage := h.packageImage_eq hb hinv hre hfuel
  have henough := congrArg List.length hrestores.begins
  rw [List.length_take] at henough
  have hle : file.length ≤ (releaseDrive P fuel src m (toolHdr K c encrypt pi file).info).out.length :=
    henough ▸ Nat.min_le_right _ _
  have hrounds : (toolBody K c encrypt file).length + file.length + 4095 < fuel * qbootBufSize := by
    rw [qbootBufSize]
    omega
  constructor
  case accepted => exact h.accepted hb rfl (by omega)
  case starts =>
    rw [himage]
    exact h.starts
  all_goals rw [hinfo]
  case forApp => exact h.partName
  case crypt => exact hp.releasable.crypt
  case aes => exact hp.releasable.aes
  case reached => exact hrestores.reached
  case puts => exact hrestores.puts
  case enough =>
    rw [hraw]
    exact hle
  case fits => exact hrestores.fits
  case erased =>
    rw [hraw]
    exact hrestores.erased
  case crc => exact fun hverify => absurd hverify toolHdr_verifyType
  case words =>
    rw [hraw]
    exact h.words
  case fuel_le => omega

end Shipped

/-! ## Packages on the board -/

theorem bootParts_board : BootParts falPartTable appPart downloadPart where
  app := by decide
  download := by decide
  dev := rfl
  base := rfl

/-- A downloaded package of an application. -/
theorem shipped_downloaded (hname : pi.name = qbootAppPartName)
    (hbody : (toolBody K c encrypt file).length ≤ 1048480) (hwords : 8 ≤ file.length)
    (hfits : file.length ≤ 393120) (hstarts : legitimateApp (le32 file 0) (le32 file 4) = true) :
    Shipped appPart downloadPart K c encrypt pi file (downloaded K c encrypt pi file) where
  forApp := hname
  fits := by
    show 96 + _ ≤ 1048576
    omega
  stored := by
    have hlen : fwInfoSize + (toolBody K c encrypt file).length =
        ((toolHdr K c encrypt pi file).bytes ++ toolBody K c encrypt file).length := by
      rw [List.length_append, RblHdr.bytes_length]
      rfl
    rw [hlen]
    exact FalPartition.bytes_holding _ _
  words := hwords
  file_fits := hfits
  starts := hstarts

end RtThreadOta
