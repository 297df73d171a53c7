import RtThreadOta.Qboot.Intact

/-!
# What a reported success is worth

`qbt_fw_update` says yes when the release and the verification do. The driver of the chip answers a read with
the length whether it succeeded or not, the result of the gzip flush is not looked at, and the flush is
repeated, padded, until `raw_size` bytes are counted. So a yes means an image in place only where the reads
and the flush went through and the body had enough to give.
-/

namespace RtThreadOta

open Interaction Nor Words

variable {L : Layout} {P : Codecs} {env : Env} {dst src : FalPartition} {fuel : ℕ} {s : Board}
  {info : FwInfo} {ram : Ram P}

/-! ## What a drive that ends has taken -/

section Drive

variable {d : Decoder} {Good : d.State → Prop} {Dry : List UInt8 → d.State → Prop}
  {rawSize pos avail pieces : ℕ} {a b : d.State} {rest : List UInt8}

end Drive

/-! ## The update -/

/-- The drive of a release over a stored package. -/
def releaseDrive (P : Codecs) (fuel : ℕ) (src : FalPartition) (m : Flash) (info : FwInfo) : Trace :=
  match decoderOf P fuel info.cmprsType with
  | some d => d.drive destPolicy info.rawSize fuel d.init 0 (src.len - fwInfoSize) (src.plain P m info)
  | none => ⟨[], [], [], .bad⟩

/-- A release to another partition in which no failure is reported of what nobody looks at: reads of the
package and flushes. The cipher text is of whole blocks. -/
structure Undisturbed (P : Codecs) (env : Env) (fuel : ℕ) (dst src : FalPartition) (m : Flash)
    (info : FwInfo) : Prop where
  ne : dst ≠ src
  reads : ReadsQuiet env src
  flush : ∀ p ∈ (releaseDrive P fuel src m info).flushes, ∀ t bs,
    (env t (.write dst.dev (dst.offset + p) bs)).Quiet
  aes : info.cryptType = qbootAlgoCryptAes → 16 ∣ info.pkgSize

/-- What an update that says yes has done to the flash, from `m` to `m'`. -/
structure Reported (L : Layout) (P : Codecs) (fuel : ℕ) (dst src : FalPartition) (m : Flash) (info : FwInfo)
    (m' : Flash) : Prop where
  crypt : CryptSupported info
  reached : (releaseDrive P fuel src m info).fin = .reached
  fits : info.rawSize ≤ dst.len
  released : Released L dst info m (releaseDrive P fuel src m info).out m'

section Update

variable {dstName srcName : PartName} {d : Decoder}

theorem releaseDrive_eq (hd : decoderOf P fuel info.cmprsType = some d) (m : Flash) :
    releaseDrive P fuel src m info =
      d.drive destPolicy info.rawSize fuel d.init 0 (src.len - fwInfoSize) (src.plain P m info) := by
  rw [releaseDrive, hd]

/-- A release that says yes has come to its end and written it. -/
theorem wp_qbtFwRelease_reported (hdst : falPartitionFind L (dstName.get ram) = some dst)
    (hsrc : falPartitionFind L (srcName.get ram) = some src) (hinfo : ram.fwInfo = info)
    (hpkg : info.pkgSize + fwInfoSize < 2147483648)
    (h : Undisturbed P env fuel dst src s.flash info) :
    (qbtFwRelease L fuel dstName srcName ram).wp (world L env)
      (fun r s' => r.2 = true → Reported L P fuel dst src s.flash info s'.flash)
      (fun _ _ => True) s := by
  have hno : ∀ (ram' : Ram P) (s' : Board), ((ram', false) : Ram P × Bool).2 = true →
      Reported L P fuel dst src s.flash info s'.flash := fun _ _ hfalse => Bool.noConfusion hfalse
  have hcut : ¬ Calm env → ∀ _ : Board, True := fun _ _ => trivial
  cases hinit : qbtFwDecryptInit info.cryptType ram with
  | none =>
    rw [qbtFwRelease, hinfo, hinit]
    exact hno _ _
  | some ram₁ =>
  cases hinit' : qbtFwDecompressInit info.cmprsType ram₁ with
  | none =>
    rw [qbtFwRelease, hinfo, hinit]
    dsimp only
    rw [hinit']
    exact hno _ _
  | some ram₂ =>
  obtain ⟨d, hd⟩ : ∃ d, decoderOf P fuel info.cmprsType = some d :=
    decoderOf_of_qbtFwDecompressInit hinit'
  have hT : releaseDrive P fuel src s.flash info = _ := releaseDrive_eq hd s.flash
  have hcrypt := cryptSupported_of_qbtFwDecryptInit hinit
  by_cases hraw : info.rawSize ≤ dst.len
  · have hr : Releasable L dst src dstName srcName ram info :=
      ⟨hdst, hsrc, h.ne, hinfo, hcrypt, h.aes, hpkg, hraw⟩
    exact wp_qbtFwRelease hr h.reads hcut hd hT h.flush (fun _ _ _ => hno _ _) (fun _ _ _ => hno _ _)
      (fun _ _ _ => hno _ _) (fun _ _ _ _ => hno _ _)
      (fun hreached _ _ _ hreleased _ => ⟨hcrypt, hreached, hraw, hreleased⟩) fun _ _ _ => trivial
  · have hlt : info.rawSize < 4294967296 := le32_lt _ _
    rw [qbtFwRelease, hinfo, hinit, hdst]
    dsimp only
    rw [hinit']
    dsimp only
    rw [Prog.wp_bind]
    refine wp_kprintf hcut fun s₁ _ _ => ?_
    rw [eraseTarget, falPartitionErase_out (by omega) (by omega)]
    exact hno _ _

end Update

end RtThreadOta
