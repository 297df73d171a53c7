import RtThreadOta.Qboot.CheckSpec

/-!
# What an update does

Specifications of `qbt_fw_release`, `qbt_dest_part_verify` and `qbt_fw_update` from one partition to
another. A release that reports success drove the decoder to its end, wrote all bytes that came out
and programmed the header over what was then at the tail.
-/

namespace RtThreadOta

open Interaction Nor Words

variable {L : Layout} {P : Codecs} {env : Env} {dst src : FalPartition} {ram : Ram P} {fuel : ℕ}
  {E : Option Halt → Board → Prop} {s : Board} {info : FwInfo}

/-- The header's place at the tail of a partition. -/
def FalPartition.tail (p : FalPartition) : ℕ := p.len - fwInfoSize

theorem Layout.tail_add (hp : dst ∈ L.parts) : dst.tail + fwInfoSize = dst.len :=
  Nat.sub_add_cancel (L.sound dst hp).header_fits

/-- The target after a release: the decoded bytes, and the header over them at the tail. -/
def Released (L : Layout) (dst : FalPartition) (info : FwInfo) (m₀ : Flash) (X : List UInt8)
    (m : Flash) : Prop :=
  ∃ m₁, Written L dst info.rawSize m₀ X m₁ ∧ m = dst.programmed m₁ dst.tail info.bytes ∧
    (dst.dev = .onchip → ∀ (i : ℕ) (hi : i < info.bytes.length),
      Below info.bytes[i] (dst.byte m₁ (dst.tail + i)))

/-- Why the header could not be written. -/
def HeaderRefused (L : Layout) (env : Env) (dst : FalPartition) (info : FwInfo) (m₀ : Flash)
    (X : List UInt8) (m : Flash) : Prop :=
  ∃ m₁, Written L dst info.rawSize m₀ X m₁ ∧ dst.SameOutside dst.tail fwInfoSize m₁ m ∧
    (Calm env → dst.dev = .onchip ∧ ¬ ∀ (i : ℕ) (hi : i < info.bytes.length),
      Below info.bytes[i] (dst.byte m₁ (dst.tail + i)))

/-- The erases of the image and of the tail leave the erased bytes blank. -/
theorem written_erased (hdst : dst ∈ L.parts) {rawSize : ℕ} (hraw : rawSize ≤ dst.len) (m : Flash) :
    Written L dst rawSize m []
      (dst.erased (dst.erased m (eraseStart L dst 0) (eraseStop L dst (0 + rawSize)))
        (eraseStart L dst dst.tail) (eraseStop L dst (dst.tail + fwInfoSize))) where
  elsewhere := by
    have hstop := eraseStop_le hdst hraw
    have htail := eraseStop_le (L := L) hdst (Nat.le_of_eq (Layout.tail_add hdst))
    rw [Nat.zero_add]
    exact (FalPartition.sameElsewhere_erased hstop).trans (FalPartition.sameElsewhere_erased htail)
  byte i hi herased := by
    rw [List.getD_nil, Layout.tail_add hdst, Nat.zero_add]
    have hlen : dst.len ≤ eraseStop L dst dst.len := le_eraseStop L dst dst.len
    by_cases htail : eraseStart L dst dst.tail ≤ i
    · exact FalPartition.byte_erased htail (by omega)
    · rw [FalPartition.byte_erased_of_not (by omega)]
      refine FalPartition.byte_erased (Nat.le_trans (eraseStart_le L dst 0) (Nat.zero_le i)) ?_
      exact herased.resolve_right htail

set_option maxRecDepth 3000 in
theorem wp_eraseTarget (hdst : dst ∈ L.parts) {rawSize : ℕ} (hraw : rawSize ≤ dst.len)
    (hcut : ¬ Calm env → ∀ s', E none s') {Q : Bool → Board → Prop}
    (hok : ∀ s', Written L dst rawSize s.flash [] s'.flash → Q true s')
    (hbad : rawSize = 0 ∨ ¬ Calm env → ∀ s', Q false s') :
    (eraseTarget (some dst) rawSize).wp (world L env) Q E s := by
  have htail := Layout.tail_add hdst
  have hpos96 : 0 < fwInfoSize := Nat.succ_pos _
  -- the second erase, once the blocks of the image are erased
  have hsecond : ∀ s₁ : Board,
      s₁.flash = dst.erased s.flash (eraseStart L dst 0) (eraseStop L dst (0 + rawSize)) →
      (falPartitionErase (some dst) dst.tail fwInfoSize).wp (world L env)
        (fun ret s' => Q (decide (0 ≤ ret)) s') E s₁ := by
    intro s₁ hs₁
    refine wp_falPartitionErase hdst hpos96 (Nat.le_of_eq htail) hcut (fun s₂ hs₂ _ => ?_)
      fun hfail r hr s₂ _ => ?_
    · have hnn : (0 : ℤ) ≤ (fwInfoSize : ℕ) := by omega
      rw [decide_eq_true hnn]
      refine hok s₂ ?_
      rw [hs₂, hs₁]
      exact written_erased hdst hraw s.flash
    · rw [decide_eq_false (by omega)]
      exact hbad (Or.inr hfail) s₂
  rw [eraseTarget, Prog.wp_bind]
  rcases Nat.eq_zero_or_pos rawSize with rfl | hpos
  · refine wp_falPartitionErase_zero hcut fun r s₁ hs₁ => ?_
    split
    · exact hbad (Or.inl rfl) s₁
    · rw [Prog.wp_bind]
      refine hsecond s₁ ?_
      have hstart : eraseStart L dst 0 = 0 := Nat.le_zero.1 (eraseStart_le L dst 0)
      rw [Nat.zero_add, eraseStop_zero, hstart, FalPartition.erased_self, hs₁]
  · refine wp_falPartitionErase hdst hpos (by omega) hcut (fun s₁ hs₁ _ => ?_)
      fun hfail r hr s₁ _ => ?_
    · rw [if_neg (by omega), Prog.wp_bind]
      exact hsecond s₁ hs₁
    · rw [if_pos hr]
      exact hbad (Or.inr hfail) s₁

set_option maxRecDepth 3000 in
/-- `qbt_fw_info_write` at the tail of a partition. -/
theorem wp_qbtFwInfoWrite {name : List UInt8} (hname : falPartitionFind L name = some dst)
    (hcut : ¬ Calm env → ∀ s', E none s') {Q : Bool → Board → Prop}
    (hok : (dst.dev = .onchip → ∀ (i : ℕ) (hi : i < info.bytes.length),
        Below info.bytes[i] (dst.byte s.flash (dst.tail + i))) →
      ∀ s', s'.flash = dst.programmed s.flash dst.tail info.bytes → Q true s')
    (hbad : (Calm env → dst.dev = .onchip ∧ ¬ ∀ (i : ℕ) (hi : i < info.bytes.length),
        Below info.bytes[i] (dst.byte s.flash (dst.tail + i))) →
      ∀ s', dst.SameOutside dst.tail fwInfoSize s.flash s'.flash → Q false s') :
    (qbtFwInfoWrite L name info true).wp (world L env) Q E s := by
  have hdst := mem_of_find hname
  have htail := Layout.tail_add hdst
  have hbytes : info.bytes.length = fwInfoSize := Buffer.bytes_length _
  rw [qbtFwInfoWrite, hname]
  dsimp only
  rw [Prog.wp_bind]
  show (falPartitionWrite (some dst) dst.tail info.bytes).wp _ _ _ _
  refine wp_falPartitionWrite hdst (by omega) hcut (fun hbelow s' hs' _ => ?_)
    fun hfail r hr s' hs' _ => ?_
  · have hnn : (0 : ℤ) ≤ info.bytes.length := by omega
    rw [Prog.wp_ret, decide_eq_true hnn]
    exact hok hbelow s' hs'
  · have hneg : ¬ (0 : ℤ) ≤ r := by omega
    rw [Prog.wp_ret, decide_eq_false hneg]
    refine hbad (fun hcalm => ?_) s' (hbytes ▸ hs')
    obtain ⟨honchip, hnil | hbelow⟩ := hfail fun t => by rw [hcalm]; exact Fault.none_quiet
    · rw [hnil] at hbytes
      cases hbytes
    · exact ⟨honchip, hbelow⟩

section Release

variable {d : Decoder} {T : Trace} {Q : Ram P × Bool → Board → Prop} {m₀ : Flash}

/-- The release from the erased target on. -/
theorem wp_releaseTo {dstName : List UInt8} (hdstName : falPartitionFind L dstName = some dst)
    (hsrc : src ∈ L.parts) (hne : dst ≠ src) (hquiet : ReadsQuiet env src)
    (hcut : ¬ Calm env → ∀ s', E none s') {ram₀ : Ram P}
    (hram : qbtFwDecryptInit info.cryptType ram₀ = some ram) {ram' : Ram P}
    (hram' : qbtFwDecompressInit info.cmprsType ram = some ram') (hkept : Kept ram ram')
    (hinfo : ram'.fwInfo = info) (hdvd : info.cryptType = qbootAlgoCryptAes → 16 ∣ info.pkgSize)
    (hpkg : info.pkgSize < 2147483648) (hraw : info.rawSize ≤ dst.len)
    (hd : decoderOf P fuel info.cmprsType = some d)
    (hT : T = d.drive destPolicy info.rawSize fuel d.init 0 (src.len - fwInfoSize)
      (src.plain P m₀ info))
    (hflush : ∀ p ∈ T.flushes, ∀ t bs, (env t (.write dst.dev (dst.offset + p) bs)).Quiet)
    (hstart : Written L dst info.rawSize m₀ [] s.flash)
    (hbad : T.fin = .bad → ∀ ram' s', Q (ram', false) s')
    (hrefused : ∀ ram' s', RefusedIn (DestRefused L env dst info.rawSize m₀) T.puts T.out s' →
      Q (ram', false) s')
    (hheader : T.fin = .reached → ∀ ram' s', HeaderRefused L env dst info m₀ T.out s'.flash →
      Q (ram', false) s')
    (hok : T.fin = .reached → ∀ ram' s', ram'.fwInfo = info →
      Released L dst info m₀ T.out s'.flash → Q (ram', true) s')
    (hstop : ∀ h, T.fin = .stop h → ∀ s', E (some h) s') :
    (releaseTo L fuel dstName (some dst) (some src) info ram').wp (world L env) Q E s := by
  have hdst := mem_of_find hdstName
  have hsrcFit := (L.sound src hsrc).header_fits
  obtain ⟨R, href⟩ := decoderOf_refines hd
  rw [releaseTo, Prog.wp_bind]
  have hInv : destInv L dst info.rawSize (decoderUnit info.cmprsType) m₀ () 0 [] s :=
    ⟨hstart, rfl, Nat.dvd_zero _, Nat.zero_le _⟩
  refine wp_pkgLoop (destSink_spec hdst hraw hcut hflush)
    (fun _ => href (destSink _) rfl) (decoderOf_lawful hd) (fun _ _ _ _ => rfl)
    (destInv_keepsSource hdst hsrc hne (FalPartition.SameElsewhere.refl dst m₀)) hsrc hquiet hcut
    hpkg (fun _ => (href (destSink none) rfl).init hram') hInv (Nat.le_refl _) (Nat.le_add_left ..)
    hsrcFit
    (decrypts_start hram hkept hdvd) hT (Or.inl fun _ _ => rfl) (fun _ h => h)
    (fun hf ram'' s' => ?_) (fun ram'' s' hr => ?_) (fun hf ram'' st' pos' s' hfw hi => ?_) hstop
  · exact hbad hf ram'' s'
  · exact hrefused ram'' s' hr
  obtain ⟨hw, -, -, -⟩ := hi
  dsimp only
  rw [Prog.wp_bind]
  refine wp_qbtFwInfoWrite hdstName hcut (fun hbelow s'' hs'' => ?_) fun hfail s'' hs'' => ?_
  · exact hok hf ram'' s'' (hfw.trans hinfo) ⟨s'.flash, hw, hs'', hbelow⟩
  · exact hheader hf ram'' s'' ⟨s'.flash, hw, hs'', hfail⟩

/-- A release from one partition to another whose package has supported sizes and encryption. -/
structure Releasable (L : Layout) (dst src : FalPartition) (dstName srcName : PartName) (ram : Ram P)
    (info : FwInfo) : Prop where
  dst_find : falPartitionFind L (dstName.get ram) = some dst
  src_find : falPartitionFind L (srcName.get ram) = some src
  ne : dst ≠ src
  fwInfo : ram.fwInfo = info
  crypt : CryptSupported info
  aes : info.cryptType = qbootAlgoCryptAes → 16 ∣ info.pkgSize
  pkg : info.pkgSize + fwInfoSize < 2147483648
  raw : info.rawSize ≤ dst.len

theorem Releasable.pkg_lt {dstName srcName : PartName}
    (h : Releasable L dst src dstName srcName ram info) : info.pkgSize < 2147483648 :=
  Nat.lt_of_le_of_lt (Nat.le_add_right _ _) h.pkg

/-- What a release does once the memory of the codecs is set up. -/
theorem qbtFwRelease_eq {dstName srcName : PartName}
    (hdst : falPartitionFind L (dstName.get ram) = some dst)
    (hsrc : falPartitionFind L (srcName.get ram) = some src) (hinfo : ram.fwInfo = info)
    (hcrypt : CryptSupported info) (hd : decoderOf P fuel info.cmprsType = some d) :
    ∃ ram₁ ram₂ : Ram P, qbtFwDecryptInit info.cryptType ram = some ram₁ ∧
      qbtFwDecompressInit info.cmprsType ram₁ = some ram₂ ∧ Kept ram₁ ram₂ ∧ ram₂.fwInfo = info ∧
      qbtFwRelease L fuel dstName srcName ram = (do
        kprintf (.startErase (dstName.get ram))
        let erased ← eraseTarget (some dst) info.rawSize
        if !erased then Prog.ret (ram₂, false)
        else releaseTo L fuel (dstName.get ram) (some dst) (some src) info ram₂) := by
  obtain ⟨ram₁, hram₁, hfw₁⟩ := qbtFwDecryptInit_of_supported hcrypt ram
  obtain ⟨ram₂, hram₂, hkept⟩ := qbtFwDecompressInit_of_decoderOf hd ram₁
  refine ⟨ram₁, ram₂, hram₁, hram₂, hkept, hkept.fwInfo.trans (hfw₁.trans hinfo), ?_⟩
  rw [qbtFwRelease, hinfo, hdst, hsrc, hram₁]
  dsimp only
  rw [hram₂]

/-- The release of a package that decodes by `d`. -/
theorem wp_qbtFwRelease {dstName srcName : PartName}
    (h : Releasable L dst src dstName srcName ram info) (hquiet : ReadsQuiet env src)
    (hcut : ¬ Calm env → ∀ s', E none s') (hd : decoderOf P fuel info.cmprsType = some d)
    (hT : T = d.drive destPolicy info.rawSize fuel d.init 0 (src.len - fwInfoSize)
      (src.plain P s.flash info))
    (hflush : ∀ p ∈ T.flushes, ∀ t bs, (env t (.write dst.dev (dst.offset + p) bs)).Quiet)
    (herase : info.rawSize = 0 ∨ ¬ Calm env → ∀ ram' s', Q (ram', false) s')
    (hbad : T.fin = .bad → ∀ ram' s', Q (ram', false) s')
    (hrefused : ∀ ram' s', RefusedIn (DestRefused L env dst info.rawSize s.flash) T.puts T.out s' →
      Q (ram', false) s')
    (hheader : T.fin = .reached → ∀ ram' s', HeaderRefused L env dst info s.flash T.out s'.flash →
      Q (ram', false) s')
    (hok : T.fin = .reached → ∀ ram' s', ram'.fwInfo = info →
      Released L dst info s.flash T.out s'.flash → Q (ram', true) s')
    (hstop : ∀ h, T.fin = .stop h → ∀ s', E (some h) s') :
    (qbtFwRelease L fuel dstName srcName ram).wp (world L env) Q E s := by
  obtain ⟨ram₁, ram₂, hram₁, hram₂, hkept, hinfo, heq⟩ :=
    qbtFwRelease_eq h.dst_find h.src_find h.fwInfo h.crypt hd
  rw [heq, Prog.wp_bind]
  refine wp_kprintf hcut fun s₁ hs₁ _ => ?_
  rw [Prog.wp_bind]
  refine wp_eraseTarget (mem_of_find h.dst_find) h.raw hcut (fun s₂ hs₂ => ?_) fun hfail s₂ => ?_
  · exact wp_releaseTo h.dst_find (mem_of_find h.src_find) h.ne hquiet hcut hram₁ hram₂ hkept hinfo
      h.aes h.pkg_lt h.raw hd hT hflush (hs₁ ▸ hs₂) hbad hrefused hheader hok hstop
  · exact herase hfail _ _

end Release

/-! ## The target afterwards -/

theorem Released.elsewhere {m₀ m : Flash} {X : List UInt8} (hdst : dst ∈ L.parts)
    (h : Released L dst info m₀ X m) : dst.SameElsewhere m₀ m := by
  obtain ⟨m₁, hw, rfl, -⟩ := h
  refine hw.elsewhere.trans (FalPartition.sameElsewhere_programmed ?_)
  rw [Buffer.bytes_length]
  exact Nat.le_of_eq (Layout.tail_add hdst)

/-- In front of the header the erased target holds the decoded bytes and is blank behind them. -/
theorem Released.byte {m₀ m : Flash} {X : List UInt8} (hdst : dst ∈ L.parts)
    (h : Released L dst info m₀ X m) {i : ℕ} (hi : i < dst.tail)
    (herased : Erased L dst info.rawSize i) : dst.byte m i = X.getD i 0xFF := by
  have htail := Layout.tail_add hdst
  obtain ⟨m₁, hw, rfl, -⟩ := h
  rw [FalPartition.byte_programmed_of_not (by omega)]
  exact hw.byte i (by omega) herased

/-- The decoded bytes in front of the header, as a list. -/
theorem Released.bytes {m₀ m : Flash} {X : List UInt8} (hdst : dst ∈ L.parts)
    (h : Released L dst info m₀ X m) {n : ℕ} (hn : n ≤ X.length) (htail : n ≤ dst.tail)
    (herased : n ≤ eraseStop L dst info.rawSize) : dst.bytes m 0 n = X.take n := by
  refine List.ext_getElem (by simp [hn]) fun i hi hi' => ?_
  rw [FalPartition.bytes_length] at hi
  have hbyte := h.byte hdst (i := i) (by omega) (Or.inl (by omega))
  rw [List.getD_eq_getElem _ _ (by omega)] at hbyte
  rw [List.getElem_take, ← hbyte]
  simp only [FalPartition.bytes, FalPartition.byte, Nor.read_getElem, Nat.add_zero]

/-- Where the decoded bytes end in front of the header, it is the one of the package. -/
theorem Released.info_eq {m₀ m : Flash} {X : List UInt8} (hdst : dst ∈ L.parts)
    (h : Released L dst info m₀ X m) (hX : X.length ≤ dst.tail) :
    dst.info m dst.tail = info := by
  have htail := Layout.tail_add hdst
  have hbytes : info.bytes.length = fwInfoSize := Buffer.bytes_length _
  obtain ⟨m₁, hw, rfl, -⟩ := h
  refine Buffer.ext_bytes ?_
  have hread := @Nor.read_program_of_erased Dev _ m₁ dst.dev (dst.base + dst.tail) info.bytes
    fun i hi => ?_
  · rw [hbytes] at hread
    rw [FalPartition.info_bytes]
    exact hread
  rw [Nat.add_assoc]
  refine hw.blank (by omega) (Or.inr ?_) (by omega)
  exact Nat.le_trans (eraseStart_le L dst _) (Nat.le_add_right _ _)

theorem Released.tail_eq {m₀ m : Flash} {X : List UInt8} (hdst : dst ∈ L.parts)
    (h : Released L dst info m₀ X m) (hX : X.length ≤ dst.tail) :
    dst.bytes m dst.tail fwInfoSize = info.bytes := by
  rw [← FalPartition.info_bytes, h.info_eq hdst hX]

/-! ## Verification and update -/

/-- What `qbt_dest_part_verify` checks of the target and the header found there. -/
def Verified (dst : FalPartition) (m : Flash) (info : FwInfo) : Prop :=
  qbtFwInfoCheck info = true ∧ (info.verifyType = qbootAlgo2VerifyCrc →
    info.rawSize ≤ dst.len ∧ (crc32Cal (dst.bytes m 0 info.rawSize)).toNat = info.rawCrc)

theorem wp_qbtDestPartVerify {name : PartName} (hname : falPartitionFind L (name.get ram) = some dst)
    (hquiet : ReadsQuiet env dst) (hcut : ¬ Calm env → ∀ s', E none s')
    (hinfo : dst.info s.flash dst.tail = info)
    (hname' : falPartitionFind L (name.get { ram with fwInfo := info }) = some dst)
    (hsize : info.rawSize < 2147483648) (hfuel : info.rawSize + 4095 < fuel * qbootBufSize)
    {Q : Ram P × Bool → Board → Prop}
    (hbad : ¬ Verified dst s.flash info → ∀ ram' s', s'.flash = s.flash → Q (ram', false) s')
    (hok : Verified dst s.flash info → ∀ ram' s', ram'.fwInfo = info → s'.flash = s.flash →
      Q (ram', true) s') :
    (qbtDestPartVerify L fuel name ram).wp (world L env) Q E s := by
  rw [qbtDestPartVerify, Prog.wp_bind]
  refine wp_qbtFwInfoRead hname hquiet hcut true fun s₁ hs₁ => ?_
  have haddr : infoAddr dst true = dst.tail := rfl
  rw [haddr, hinfo]
  dsimp only
  simp only [Bool.not_true, Bool.false_eq_true, if_false]
  by_cases hcheck : qbtFwInfoCheck info = true
  swap
  · rw [Bool.not_eq_true] at hcheck
    rw [hcheck]
    refine hbad (fun hv => ?_) _ s₁ hs₁
    rw [hv.1] at hcheck
    cases hcheck
  rw [hcheck]
  simp only [Bool.not_true, Bool.false_eq_true, if_false]
  by_cases hverify : info.verifyType = qbootAlgo2VerifyCrc
  swap
  · rw [if_neg hverify]
    exact hok ⟨hcheck, fun h => absurd h hverify⟩ _ s₁ rfl hs₁
  rw [if_pos hverify]
  refine wp_qbtFwCrcCheck hname' hquiet hcut hsize (by omega) (Nat.zero_le _) (fun hin ram' s' hfw hs' => ?_)
    (fun hout ram' s' _ hs' => ?_) fun hdiv => ?_
  · rw [Nat.zero_add] at hin
    rw [hs₁] at hs' ⊢
    by_cases hcrc : (crc32Cal (dst.bytes s.flash 0 info.rawSize)).toNat = info.rawCrc
    · rw [decide_eq_true hcrc]
      exact hok ⟨hcheck, fun _ => ⟨hin, hcrc⟩⟩ ram' s' hfw hs'
    · rw [decide_eq_false hcrc]
      exact hbad (fun hv => hcrc (hv.2 hverify).2) ram' s' hs'
  · refine hbad (fun hv => ?_) ram' s' (hs'.trans hs₁)
    have := (hv.2 hverify).1
    omega
  · omega

/-! ## Updates on which nothing goes wrong -/

section Clean

variable {d : Decoder} {T : Trace} {Q : Ram P × Bool → Board → Prop} {dstName srcName : PartName}
  {m₀ : Flash}

/-- Decoded bytes within the erased image are all written. -/
theorem not_refusedIn (hcalm : Calm env) (hputs : ∀ bs ∈ T.puts, bs ≠ [])
    (hfit : T.out.length ≤ dst.len) {rawSize : ℕ}
    (herased : T.out.length ≤ eraseStop L dst rawSize) {s' : Board} :
    ¬ RefusedIn (DestRefused L env dst rawSize m₀) T.puts T.out s' := by
  rintro ⟨X, bs, hmem, hpre, hr⟩
  have hle := hpre.length_le
  rw [List.length_append] at hle
  rcases hr with hr | hr | ⟨hr, -⟩ | ⟨i, -, hi, hr⟩
  · exact hr hcalm
  · exact hputs bs hmem hr
  · omega
  · exact hr (Or.inl (by omega))

/-- A header behind the decoded bytes is written. -/
theorem not_headerRefused (hcalm : Calm env) (hdst : dst ∈ L.parts) {X : List UInt8}
    (hX : X.length ≤ dst.tail) {m : Flash} : ¬ HeaderRefused L env dst info m₀ X m := by
  rintro ⟨m₁, hw, -, hr⟩
  refine (hr hcalm).2 fun i hi => ?_
  have htail := Layout.tail_add hdst
  rw [Buffer.bytes_length] at hi
  have hstart := eraseStart_le L dst dst.tail
  rw [hw.blank (by omega) (Or.inr (Nat.le_trans hstart (Nat.le_add_right _ _))) (by omega)]
  exact below_ff _

/-- On fault-free flash a package whose decoded bytes end in front of the header is released. -/
theorem wp_qbtFwRelease_clean (hcalm : Calm env)
    (h : Releasable L dst src dstName srcName ram info) (hraw : 0 < info.rawSize)
    (hd : decoderOf P fuel info.cmprsType = some d)
    (hT : T = d.drive destPolicy info.rawSize fuel d.init 0 (src.len - fwInfoSize)
      (src.plain P s.flash info))
    (hreached : T.fin = .reached) (hputs : ∀ bs ∈ T.puts, bs ≠ [])
    (hfit : T.out.length ≤ dst.tail) (herased : T.out.length ≤ eraseStop L dst info.rawSize)
    (hok : ∀ ram' s', ram'.fwInfo = info → Released L dst info s.flash T.out s'.flash →
      Q (ram', true) s') :
    (qbtFwRelease L fuel dstName srcName ram).wp (world L env) Q E s := by
  have hdst := mem_of_find h.dst_find
  have htail := Layout.tail_add hdst
  refine wp_qbtFwRelease h (hcalm.readsQuiet src) (fun hcut => absurd hcalm hcut) hd hT
    (fun _ _ t _ => ?_) (fun hfail => ?_) (fun hbad => ?_) (fun ram' s' hr => ?_)
    (fun _ ram' s' hr => ?_) (fun _ => hok) fun x hstop => ?_
  · rw [hcalm]
    exact Fault.none_quiet
  · rcases hfail with hzero | hcut
    · omega
    · exact absurd hcalm hcut
  · rw [hreached] at hbad
    cases hbad
  · exact absurd hr (not_refusedIn hcalm hputs (by omega) herased)
  · exact absurd hr (not_headerRefused hcalm hdst hfit)
  · rw [hreached] at hstop
    cases hstop

/-- On fault-free flash such a package is an update when its checks pass. -/
theorem wp_qbtFwUpdate_clean (hcalm : Calm env)
    (h : Releasable L dst src dstName srcName ram info) (hraw : 0 < info.rawSize)
    (hd : decoderOf P fuel info.cmprsType = some d)
    (hT : T = d.drive destPolicy info.rawSize fuel d.init 0 (src.len - fwInfoSize)
      (src.plain P s.flash info))
    (hreached : T.fin = .reached) (hputs : ∀ bs ∈ T.puts, bs ≠ [])
    (hfit : T.out.length ≤ dst.tail) (herased : T.out.length ≤ eraseStop L dst info.rawSize)
    (hcheck : qbtFwInfoCheck info = true)
    (hcrc : info.verifyType = qbootAlgo2VerifyCrc → info.rawSize ≤ T.out.length ∧
      (crc32Cal (T.out.take info.rawSize)).toNat = info.rawCrc)
    (hfuel : info.rawSize + 4095 < fuel * qbootBufSize)
    (hok : ∀ ram' s', ram'.fwInfo = info → Released L dst info s.flash T.out s'.flash →
      Q (ram', true) s') :
    (qbtFwUpdate L fuel dstName srcName ram).wp (world L env) Q E s := by
  have hdst := mem_of_find h.dst_find
  have hlen := L.len_lt hdst
  have hrawLen := h.raw
  have hcut : ¬ Calm env → ∀ s', E none s' := fun hc => absurd hcalm hc
  have hexist : qbtPartIsExist L (dstName.get ram) = true := by
    rw [qbtPartIsExist, h.dst_find]
    rfl
  have hfw := h.fwInfo
  have hname : ∀ ram' : Ram P, ram'.fwInfo = info →
      falPartitionFind L (dstName.get ram') = some dst := by
    intro ram' hram'
    have hfind := h.dst_find
    cases dstName with
    | lit name => exact hfind
    | ofFwInfo =>
      rw [PartName.get, hram', ← hfw]
      exact hfind
  rw [qbtFwUpdate, hexist]
  simp only [Bool.not_true, Bool.false_eq_true, if_false]
  rw [Prog.wp_bind]
  refine wp_qbtFwRelease_clean hcalm h hraw hd hT hreached hputs hfit herased
    fun ram₁ s₁ hfw₁ hrel => ?_
  simp only [Bool.not_true, Bool.false_eq_true, if_false]
  rw [Prog.wp_bind]
  refine wp_qbtDestPartVerify (hname ram₁ hfw₁) (hcalm.readsQuiet dst) hcut
    (hrel.info_eq hdst hfit) (hname _ rfl) (by omega) hfuel (fun hbad => ?_)
    fun _ ram₂ s₂ hfw₂ hs₂ => ?_
  · refine absurd ⟨hcheck, fun hverify => ⟨h.raw, ?_⟩⟩ hbad
    obtain ⟨hle, hsum⟩ := hcrc hverify
    rw [hrel.bytes hdst hle (by omega) (by omega)]
    exact hsum
  · simp only [Bool.not_true, Bool.false_eq_true, if_false]
    rw [Prog.wp_bind]
    refine wp_kprintf hcut fun s₃ hs₃ _ => ?_
    refine hok ram₂ s₃ hfw₂ ?_
    rwa [hs₃, hs₂]

end Clean

end RtThreadOta
