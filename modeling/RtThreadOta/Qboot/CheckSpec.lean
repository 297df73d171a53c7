import RtThreadOta.Qboot.Sinks
import RtThreadOta.Qboot.Traces

/-!
# What the checks do

Specifications of the functions that read: the header, the CRC of a range, the CRC of the decoded
application and `qbt_fw_check` over them. A check that passes says that the package lies within its
partition and that its check sums match.
-/

namespace RtThreadOta

open Interaction Nor Words

variable {L : Layout} {P : Codecs} {env : Env} {part src : FalPartition} {ram : Ram P} {fuel : ℕ}
  {E : Option Halt → Board → Prop} {s : Board}

/-- A program that only reads leaves the flash as it is. -/
theorem wp_reads {α : Type} {p : Code α} {T : α → Prop} (h : p.OnlyPost Op.IsRead T) (env : Env)
    (s : Board) : p.wp (world L env) (fun a s' => T a ∧ s'.flash = s.flash)
      (fun _ s' => s'.flash = s.flash) s := by
  refine h.inv (fun s' : Board => s'.flash = s.flash) (fun o s' ho hs' => ?_) rfl
  rw [world]
  cases o with
  | read dev offset size => split <;> exact hs'
  | _ => exact ho.elim

theorem wp_flash_eq {α : Type} {p : Code α} (h : p.Only Op.IsRead) (env : Env) (s : Board) :
    p.wp (world L env) (fun _ s' => s'.flash = s.flash) (fun _ s' => s'.flash = s.flash) s :=
  Prog.wp_imp (wp_reads h.onlyPost env s) fun _ _ h => h.2

/-- The bytes a partition has at its start or at its tail, as a header. -/
def FalPartition.info (p : FalPartition) (m : Flash) (addr : ℕ) : FwInfo :=
  (Buffer.fill fwInfoSize 0).store 0 (p.bytes m addr fwInfoSize)

@[simp] theorem FalPartition.info_bytes (p : FalPartition) (m : Flash) (addr : ℕ) :
    (p.info m addr).bytes = p.bytes m addr fwInfoSize :=
  Buffer.bytes_store_full _ (FalPartition.bytes_length ..)

/-- Where `qbt_fw_info_read` finds the header. -/
def infoAddr (part : FalPartition) (fromTail : Bool) : ℕ :=
  if fromTail then part.len - fwInfoSize else 0

theorem infoAddr_le (hp : part ∈ L.parts) (fromTail : Bool) :
    infoAddr part fromTail + fwInfoSize ≤ part.len := by
  have := (L.sound part hp).header_fits
  rw [infoAddr]
  split <;> omega

theorem wp_qbtFwInfoRead {name : List UInt8} (hname : falPartitionFind L name = some part)
    (hquiet : ReadsQuiet env part) (hcut : ¬ Calm env → ∀ s', E none s') (fromTail : Bool)
    {Q : Ram P × Bool → Board → Prop}
    (h : ∀ s', s'.flash = s.flash →
      Q ({ ram with fwInfo := part.info s.flash (infoAddr part fromTail) }, true) s') :
    (qbtFwInfoRead L name ram fromTail).wp (world L env) Q E s := by
  have hp := mem_of_find hname
  rw [qbtFwInfoRead, hname]
  dsimp only
  rw [Prog.wp_bind]
  refine wp_falPartitionRead hp (infoAddr_le hp fromTail) (Nat.le_refl _) hcut
    (fun s' hs' _ => ?_) fun hbad => absurd hquiet hbad
  dsimp only
  rw [if_neg (by omega)]
  have hinfo : storeRead ram.fwInfo 0
      (some (part.bytes s.flash (infoAddr part fromTail) fwInfoSize)) =
        part.info s.flash (infoAddr part fromTail) := by
    refine Buffer.ext_bytes ?_
    rw [FalPartition.info_bytes]
    exact Buffer.bytes_store_full _ (FalPartition.bytes_length ..)
  have := h s' hs'
  rw [← hinfo] at this
  exact this

/-! ## The CRC of a range -/

/-- The loop of `qbt_fw_crc_check` over a range whose first `pos` bytes are in the register. -/
theorem wp_qbtFwCrcCheckLoop (hp : part ∈ L.parts) (hquiet : ReadsQuiet env part)
    (hcut : ¬ Calm env → ∀ s', E none s') {addr size pos : ℕ} {m : Flash} {info : FwInfo}
    (hsize : size < 2147483648) (haddr : addr + size < 4294967296) (hpos : pos ≤ size)
    (hread : addr + pos ≤ part.len) (hm : s.flash = m) (hinfo : ram.fwInfo = info)
    {Q : Ram P × Option UInt32 → Board → Prop}
    (hok : addr + size ≤ part.len → ∀ ram' s', ram'.fwInfo = info → s'.flash = m →
      Q (ram', some (crc32CycCal crc32InitVal (part.bytes m addr size))) s')
    (hbad : part.len < addr + size → ∀ ram' s', ram'.fwInfo = info → s'.flash = m →
      Q (ram', none) s')
    (hdiv : fuel * qbootBufSize ≤ size - pos + 4095 → ∀ s', E (some .diverged) s') :
    (qbtFwCrcCheckLoop (some part) addr size fuel ram pos
      (crc32CycCal crc32InitVal (part.bytes m addr pos))).wp (world L env) Q E s := by
  have h4096 : qbootBufSize = 4096 := rfl
  have hlen := L.len_lt hp
  induction fuel generalizing ram pos s with
  | zero => exact hdiv (by omega) s
  | succ fuel ih =>
    rw [qbtFwCrcCheckLoop]
    by_cases hlt : pos < size
    swap
    · rw [if_neg hlt]
      obtain rfl : pos = size := by omega
      exact hok hread ram s hinfo hm
    have hn : readLen qbootBufSize (subU32 (u32 size) pos) = min qbootBufSize (size - pos) :=
      readLen_eq hsize hpos
    rw [u32_of_lt (by omega)] at hn
    rw [if_pos hlt, hn]
    generalize hmin : min qbootBufSize (size - pos) = n
    dsimp only
    rw [u32_of_lt (n := addr + pos) (by omega), Prog.wp_bind]
    by_cases hout : part.len < addr + pos + n
    · rw [falPartitionRead_out hout (by omega)]
      exact hbad (by omega) ram s hinfo hm
    have hroom : n ≤ qbootCmprsBufSize := by
      have : qbootCmprsBufSize = 5120 := rfl
      omega
    refine wp_falPartitionRead hp (by omega) hroom hcut (fun s' hs' _ => ?_)
      fun hbad => absurd hquiet hbad
    dsimp only
    rw [if_neg (by omega), u32_of_lt (by omega)]
    have hdata : ∀ data : List UInt8, data.length ≤ qbootCmprsBufSize →
        (ram.cmprsBuf.store 0 data).slice 0 data.length = data :=
      fun data hd => Buffer.slice_store_self (by omega)
    have hslice := hdata (part.bytes s.flash (addr + pos) n) (by rwa [FalPartition.bytes_length])
    rw [FalPartition.bytes_length] at hslice
    have hbytes : part.bytes m addr (pos + n) = part.bytes m addr pos ++ part.bytes m (addr + pos) n := by
      rw [FalPartition.bytes, Nor.read_add, FalPartition.bytes, FalPartition.bytes, Nat.add_assoc]
    have hcrc : crc32CycCal (crc32CycCal crc32InitVal (part.bytes m addr pos))
        ((storeRead ram.cmprsBuf 0 (some (part.bytes s.flash (addr + pos) n))).slice 0 n) =
          crc32CycCal crc32InitVal (part.bytes m addr (pos + n)) := by
      rw [storeRead, hslice, hbytes, crc32CycCal_append, hm]
    rw [hcrc]
    refine ih (by omega) (by omega) (hs'.trans hm) hinfo fun hf => hdiv ?_
    rw [Nat.succ_mul]
    rcases Nat.eq_zero_or_pos fuel with rfl | hfuel
    · omega
    · have := Nat.le_mul_of_pos_left qbootBufSize hfuel
      omega

/-- `qbt_fw_crc_check` of a range in bounds. -/
theorem wp_qbtFwCrcCheck {name : List UInt8} (hname : falPartitionFind L name = some part)
    (hquiet : ReadsQuiet env part) (hcut : ¬ Calm env → ∀ s', E none s') {addr size crc : ℕ}
    (hsize : size < 2147483648) (haddr : addr + size < 4294967296)
    (hfit : addr ≤ part.len) {Q : Ram P × Bool → Board → Prop}
    (hok : addr + size ≤ part.len → ∀ ram' s', ram'.fwInfo = ram.fwInfo → s'.flash = s.flash →
      Q (ram', decide ((crc32Cal (part.bytes s.flash addr size)).toNat = crc)) s')
    (hbad : part.len < addr + size → ∀ ram' s', ram'.fwInfo = ram.fwInfo → s'.flash = s.flash →
      Q (ram', false) s')
    (hdiv : fuel * qbootBufSize ≤ size + 4095 → ∀ s', E (some .diverged) s') :
    (qbtFwCrcCheck L fuel name addr size crc ram).wp (world L env) Q E s := by
  have hp := mem_of_find hname
  rw [qbtFwCrcCheck, hname]
  dsimp only
  rw [Prog.wp_bind]
  show (qbtFwCrcCheckLoop (some part) addr size fuel ram 0
    (crc32CycCal crc32InitVal (part.bytes s.flash addr 0))).wp _ _ _ _
  exact wp_qbtFwCrcCheckLoop hp hquiet hcut hsize haddr (Nat.zero_le _) (by omega) rfl rfl
    (fun hin ram' s' hi hf => hok hin ram' s' hi hf) (fun hout ram' s' hi hf => hbad hout ram' s' hi hf)
    hdiv

/-! ## The CRC of the decoded application -/

/-- The encryptions the bootloader knows. -/
def CryptSupported (info : FwInfo) : Prop :=
  info.cryptType = qbootAlgoCryptNone ∨ info.cryptType = qbootAlgoCryptAes

theorem qbtFwDecryptInit_of_supported {info : FwInfo} (h : CryptSupported info) (ram : Ram P) :
    ∃ ram', qbtFwDecryptInit info.cryptType ram = some ram' ∧ ram'.fwInfo = ram.fwInfo := by
  rw [qbtFwDecryptInit]
  by_cases hnone : info.cryptType = qbootAlgoCryptNone
  · rw [if_pos hnone]
    exact ⟨_, rfl, rfl⟩
  · rw [if_neg hnone, if_pos (h.resolve_left hnone)]
    exact ⟨_, rfl, rfl⟩

theorem qbtFwDecompressInit_of_decoderOf {cmprsType : ℕ} {d : Decoder}
    (h : decoderOf P fuel cmprsType = some d) (ram : Ram P) :
    ∃ ram', qbtFwDecompressInit cmprsType ram = some ram' ∧ Kept ram ram' := by
  rw [decoderOf] at h
  rw [qbtFwDecompressInit]
  by_cases hnone : cmprsType = qbootAlgoCmprsNone
  · rw [if_pos hnone]
    exact ⟨_, rfl, rfl, rfl⟩
  rw [if_neg hnone] at h ⊢
  by_cases hgzip : cmprsType = qbootAlgoCmprsGzip
  · rw [if_pos hgzip]
    exact ⟨_, rfl, rfl, rfl⟩
  rw [if_neg hgzip] at h ⊢
  by_cases hqlz : cmprsType = qbootAlgoCmprsQuicklz
  · rw [if_pos hqlz]
    exact ⟨_, rfl, rfl, rfl⟩
  rw [if_neg hqlz] at h ⊢
  by_cases hflz : cmprsType = qbootAlgoCmprsFastlz
  · rw [if_pos hflz]
    exact ⟨_, rfl, rfl, rfl⟩
  · rw [if_neg hflz] at h
    cases h

/-- The body of the package that a header at the start of the partition describes. -/
def FalPartition.body (p : FalPartition) (m : Flash) (info : FwInfo) : List UInt8 :=
  p.bytes m fwInfoSize info.pkgSize

/-- What `qbt_app_crc_check` and `qbt_fw_release` decode: the plaintext of the body. -/
def FalPartition.plain (p : FalPartition) (P : Codecs) (m : Flash) (info : FwInfo) : List UInt8 :=
  plaintext P info.cryptType (p.body m info)

/-- What the loops start from. -/
theorem decrypts_start {info : FwInfo} {ram ram₁ ram₂ : Ram P} {m : Flash}
    (h₁ : qbtFwDecryptInit info.cryptType ram = some ram₁) (h₂ : Kept ram₁ ram₂)
    (hdvd : info.cryptType = qbootAlgoCryptAes → 16 ∣ info.pkgSize) :
    Decrypts info.cryptType ram₂
      (src.bytes m fwInfoSize (info.pkgSize + fwInfoSize - fwInfoSize)) (src.plain P m info) := by
  rw [Nat.add_sub_cancel]
  refine Decrypts.congr (decrypts_plaintext h₁ fun haes => ?_) h₂.aesIv
  rw [FalPartition.bytes_length]
  exact hdvd haes

theorem wp_qbtAppCrcCheck {name : List UInt8} (hname : falPartitionFind L name = some src)
    (hquiet : ReadsQuiet env src) (hcut : ¬ Calm env → ∀ s', E none s') {info : FwInfo}
    (hinfo : ram.fwInfo = info) (hcrypt : CryptSupported info)
    (hdvd : info.cryptType = qbootAlgoCryptAes → 16 ∣ info.pkgSize)
    (hpkg : info.pkgSize < 2147483648) {d : Decoder}
    (hd : decoderOf P fuel info.cmprsType = some d) {T : Trace}
    (hT : T = d.drive crcPolicy info.rawSize fuel d.init 0 (src.len - fwInfoSize)
      (src.plain P s.flash info))
    (hkeep : info.cmprsType ≠ qbootAlgoCmprsGzip ∨ T.out.length < 4294967296)
    {Q : Ram P × Bool → Board → Prop} (hbad : T.fin = .bad → ∀ ram' s', Q (ram', false) s')
    (hok : T.fin = .reached → ∀ ram' s', ram'.fwInfo = info → s'.flash = s.flash →
      Q (ram', decide ((crc32Cal T.out).toNat = info.rawCrc)) s')
    (hstop : ∀ h, T.fin = .stop h → ∀ s', E (some h) s') :
    (qbtAppCrcCheck L fuel name ram).wp (world L env) Q E s := by
  have hp := mem_of_find hname
  have hfit := (L.sound src hp).header_fits
  obtain ⟨R, href⟩ := decoderOf_refines hd
  obtain ⟨ram₁, hram₁, hfw₁⟩ := qbtFwDecryptInit_of_supported hcrypt ram
  obtain ⟨ram₂, hram₂, hkept⟩ := qbtFwDecompressInit_of_decoderOf hd ram₁
  rw [qbtAppCrcCheck, hinfo, hname]
  dsimp only
  rw [hram₁]
  dsimp only
  rw [hram₂]
  dsimp only
  rw [Prog.wp_bind]
  have hunit : info.cmprsType ≠ qbootAlgoCmprsGzip →
      decoderUnit info.cmprsType ≠ gzipRemainBufSize := fun h => by
    rw [decoderUnit, if_neg h]
    decide
  have hInv : crcInv s.flash crc32InitVal 0 [] s := ⟨rfl, rfl⟩
  refine wp_pkgLoop crcSink_spec (fun pos => href (crcSink _) rfl)
    (decoderOf_lawful hd) (fun _ _ _ _ => rfl) (crcInv_keepsSource src s.flash) hp hquiet hcut hpkg
    (fun _ => (href (crcSink 0) rfl).init hram₂) hInv (Nat.le_refl _) (Nat.le_add_left ..) hfit
    (decrypts_start hram₁ hkept hdvd) hT (Or.inr (hkeep.imp hunit fun h => by omega))
    (fun _ _ => trivial) (fun hf ram' s' => ?_) (fun ram' s' hr => ?_)
    (fun hf ram' st' pos' s' hfw hi => ?_) hstop
  · exact hbad hf ram' s'
  · obtain ⟨_, _, _, _, hr⟩ := hr
    exact hr.elim
  · obtain ⟨rfl, hm⟩ := hi
    refine hok hf ram' s' ?_ hm
    rw [hfw, hkept.fwInfo, hfw₁, hinfo]

end RtThreadOta
