import RtThreadOta.Qboot.Integrity
import RtThreadOta.Qboot.Memory
import RtThreadOta.RoundTrip.Uncompressed

/-!
# Releasing a package again

At every boot the package of the download partition is released unless its release sign says that this
was done. The sign is a word of zeros behind the package, at the next multiple of 32. A package that
fills its partition has no room for it: the read of the sign is refused, which counts as not released,
and so is the write, whose result nobody looks at.
-/

namespace RtThreadOta

open Interaction Nor Words

variable {L : Layout} {P : Codecs} {env : Env} {src dst : FalPartition} {name : List UInt8}
  {fuel : ℕ} {ram ram₁ : Ram P} {s s₁ : Board} {info : FwInfo}

/-- The release sign of a package lies within the partition. -/
def SignFits (src : FalPartition) (info : FwInfo) : Prop := releaseSignPos info + 4 ≤ src.len

/-- The release sign is set. -/
def Signed (src : FalPartition) (m : Flash) (info : FwInfo) : Prop :=
  src.bytes m (releaseSignPos info) 4 = List.replicate 4 0

/-! ## Touching the flash -/

theorem releaseSignPos_lt (info : FwInfo) : releaseSignPos info + 4 < 4294967296 := by
  have := u32_lt (fwInfoSize + info.pkgSize + 0x1F)
  rw [releaseSignPos]
  omega

/-- Without room for it the sign is not found. -/
theorem qbtReleaseSignCheck_out (hsrc : falPartitionFind L name = some src)
    (hout : ¬ SignFits src info) : qbtReleaseSignCheck L name info = Prog.ret false := by
  rw [SignFits, Nat.not_le] at hout
  rw [qbtReleaseSignCheck, hsrc]
  dsimp only
  rw [falPartitionRead_out hout (releaseSignPos_lt info)]
  rfl

theorem wp_qbtReleaseSignCheck (hcalm : Calm env) (hsrc : falPartitionFind L name = some src)
    (hfit : SignFits src info) :
    (qbtReleaseSignCheck L name info).wp (world L env)
      (fun signed s' => (signed = true ↔ Signed src s.flash info) ∧ s'.flash = s.flash)
      (fun _ _ => False) s := by
  rw [qbtReleaseSignCheck, hsrc, Prog.wp_bind]
  refine wp_falPartitionRead (mem_of_find hsrc) hfit (Nat.le_refl 4)
    (fun hcut => absurd hcalm hcut) (fun s' hs' _ => ?_) fun hbad => absurd (hcalm.readsQuiet _) hbad
  dsimp only
  have hlen := @FalPartition.bytes_length src s.flash (releaseSignPos info) 4
  rw [if_neg (by decide), Prog.wp_ret, decide_eq_true_iff, storeRead, Buffer.bytes_store_full _ hlen,
    le32_eq_zero hlen]
  exact ⟨Iff.rfl, hs'⟩

/-- Zeros can be programmed over anything. -/
theorem wp_qbtReleaseSignWrite (hcalm : Calm env) (hsrc : falPartitionFind L name = some src)
    (hfit : SignFits src info) :
    (qbtReleaseSignWrite L name info).wp (world L env) (fun _ s' => Signed src s'.flash info)
      (fun _ _ => False) s := by
  have hzero : encodeLe32 0 = List.replicate 4 0 := rfl
  rw [qbtReleaseSignWrite, hsrc, hzero, Prog.wp_bind]
  refine wp_falPartitionWrite (mem_of_find hsrc) hfit (fun hcut => absurd hcalm hcut)
    (fun _ s' hs' _ => ?_) fun hbad r _ s' _ _ => ?_
  · rw [Prog.wp_ret, Signed, hs']
    refine List.ext_getElem (by rw [FalPartition.bytes_length, List.length_replicate]) fun i hi hi' => ?_
    rw [List.length_replicate] at hi'
    have hbyte : src.byte (src.programmed s.flash (releaseSignPos info) (List.replicate 4 0))
        (releaseSignPos info + i) = 0 := by
      rw [FalPartition.byte_programmed (Nat.le_add_right _ i) (by rw [List.length_replicate]; omega),
        Nat.add_sub_cancel_left, List.getD_replicate _ hi', UInt8.and_zero]
    simp only [FalPartition.bytes, Nor.read_getElem, List.getElem_replicate]
    rwa [FalPartition.byte, ← Nat.add_assoc] at hbyte
  · obtain ⟨-, hnil | hbelow⟩ := hbad fun t => by rw [hcalm]; exact Fault.none_quiet
    · cases hnil
    · refine absurd (fun i hi => ?_) hbelow
      rw [List.getElem_replicate]
      exact zero_below _

/-! ## The first release and the next one -/

/-- A stored package that asks for no check of the application passes `qbt_fw_check`. -/
theorem wp_qbtFwCheck_unverified (hcalm : Calm env) (hsrc : falPartitionFind L name = some src)
    (hinfo : src.info s.flash 0 = info) (hheader : qbtFwInfoCheck info = true)
    (hverify : info.verifyType ≠ qbootAlgo2VerifyCrc) (hfits : fwInfoSize + info.pkgSize ≤ src.len)
    (hcrc : (crc32Cal (src.body s.flash info)).toNat = info.pkgCrc)
    (hfuel : info.pkgSize + 4095 < fuel * qbootBufSize) :
    (qbtFwCheck L fuel name ram).wp (world L env)
      (fun r s' => r.2 = true ∧ r.1.fwInfo = info ∧ s'.flash = s.flash) (fun _ _ => False) s := by
  have hlen := L.len_lt (mem_of_find hsrc)
  have hexist : qbtPartIsExist L name = true := by rw [qbtPartIsExist, hsrc]; rfl
  rw [qbtFwCheck, hexist]
  show (qbtFwInfoRead L name ram false >>= _).wp _ _ _ _
  rw [Prog.wp_bind]
  refine wp_qbtFwInfoRead hsrc (hcalm.readsQuiet _) (fun h => absurd hcalm h) false fun s₁ hs₁ => ?_
  dsimp only
  rw [infoAddr, if_neg Bool.false_ne_true, hinfo, hheader]
  show (qbtFwCrcCheck L fuel name fwInfoSize info.pkgSize info.pkgCrc _ >>= _).wp _ _ _ _
  rw [Prog.wp_bind]
  refine wp_qbtFwCrcCheck hsrc (hcalm.readsQuiet _) (fun h => absurd hcalm h) (by omega) (by omega)
    (by omega) (fun _ ram₂ s₂ hfw₂ hs₂ => ?_) (fun hout => by omega) fun hdiv => by omega
  rw [← hs₁, FalPartition.body] at hcrc
  have hfw₂ : ram₂.fwInfo = info := hfw₂
  rw [decide_eq_true hcrc]
  simp only [Bool.not_true, Bool.false_eq_true, if_false]
  rw [hfw₂, if_neg hverify]
  exact ⟨rfl, hfw₂, hs₂.trans hs₁⟩

end RtThreadOta
