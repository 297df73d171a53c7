import RtThreadOta.Qboot.Clone
import RtThreadOta.Qboot.Frame
import RtThreadOta.Qboot.UpdateSpec

/-!
# Stored packages in use

`qboot release`, `qboot resume` and `qboot clone` read a stored package while they erase and write
another partition. The package survives as long as that partition is another one: the command line and
the header's `part_name` may name its own. The release sign lies behind the package, where the header
puts it that the release finds at the tail of its target.
-/

namespace RtThreadOta

open Interaction Nor Words

variable {L : Layout} {P : Codecs} {env : Env} {src dst : FalPartition} {name : List UInt8}
  {fuel : ℕ} {ram : Ram P} {s s' : Board} {info : FwInfo}

/-! ## The header at the tail of the target -/

theorem decoderOf_of_qbtFwDecompressInit {cmprsType : ℕ} {ram' : Ram P}
    (h : qbtFwDecompressInit cmprsType ram = some ram') :
    ∃ d, decoderOf P fuel cmprsType = some d := by
  rw [qbtFwDecompressInit] at h
  rw [decoderOf]
  by_cases hnone : cmprsType = qbootAlgoCmprsNone
  · exact ⟨_, if_pos hnone⟩
  rw [if_neg hnone] at h ⊢
  by_cases hgzip : cmprsType = qbootAlgoCmprsGzip
  · exact ⟨_, if_pos hgzip⟩
  rw [if_neg hgzip] at h ⊢
  by_cases hqlz : cmprsType = qbootAlgoCmprsQuicklz
  · exact ⟨_, if_pos hqlz⟩
  rw [if_neg hqlz] at h ⊢
  by_cases hflz : cmprsType = qbootAlgoCmprsFastlz
  · exact ⟨_, if_pos hflz⟩
  · rw [if_neg hflz] at h
    cases h

theorem cryptSupported_of_qbtFwDecryptInit {ram' : Ram P}
    (h : qbtFwDecryptInit info.cryptType ram = some ram') : CryptSupported info := by
  rw [qbtFwDecryptInit] at h
  split at h
  · exact Or.inl ‹_›
  split at h
  · exact Or.inr ‹_›
  · cases h

/-- The compressions the bootloader knows. -/
def CmprsSupported (info : FwInfo) : Prop :=
  info.cmprsType = qbootAlgoCmprsNone ∨ info.cmprsType = qbootAlgoCmprsGzip ∨
    info.cmprsType = qbootAlgoCmprsQuicklz ∨ info.cmprsType = qbootAlgoCmprsFastlz

theorem cmprsSupported_of_qbtFwDecompressInit {ram' : Ram P}
    (h : qbtFwDecompressInit info.cmprsType ram = some ram') : CmprsSupported info := by
  rw [qbtFwDecompressInit] at h
  split at h
  · exact Or.inl ‹_›
  split at h
  · exact Or.inr (Or.inl ‹_›)
  split at h
  · exact Or.inr (Or.inr (Or.inl ‹_›))
  split at h
  · exact Or.inr (Or.inr (Or.inr ‹_›))
  · cases h

/-- A program whose end says nothing. -/
theorem wp_trivial {α : Type} (p : Code α) :
    p.wp (world L env) (fun _ _ => True) (fun _ _ => True) s := by
  rw [Prog.wp_iff_run]
  split <;> trivial

/-- Verifying the target leaves its tail in the static header. -/
theorem wp_qbtDestPartVerify_info (hcalm : Calm env) {dstName : PartName}
    (hdst : falPartitionFind L (dstName.get ram) = some dst) :
    (qbtDestPartVerify L fuel dstName ram).wp (world L env)
      (fun r s' => r.1.fwInfo = dst.info s.flash dst.tail ∧ s'.flash = s.flash)
      (fun _ s' => s'.flash = s.flash) s := by
  rw [qbtDestPartVerify, Prog.wp_bind]
  refine wp_qbtFwInfoRead hdst (hcalm.readsQuiet _) (fun hcut => absurd hcalm hcut) true
    fun s₁ hs₁ => ?_
  have haddr : infoAddr dst true = dst.tail := rfl
  rw [haddr, ← hs₁]
  refine wp_reads (T := fun r : Ram P × Bool => r.1.fwInfo = dst.info s₁.flash dst.tail) ?_ env s₁
  dsimp only
  split
  · exact rfl
  split
  · exact rfl
  split
  · exact fwInfo_qbtFwCrcCheck ..
  · exact rfl

/-- The package that a partition held is still there. -/
def PackageKept (src : FalPartition) (m m' : Flash) : Prop :=
  src.bytes m' 0 (fwInfoSize + (src.info m 0).pkgSize) =
    src.bytes m 0 (fwInfoSize + (src.info m 0).pkgSize)

theorem PackageKept.refl (src : FalPartition) (m : Flash) : PackageKept src m m := rfl

theorem PackageKept.info_eq {m m' : Flash} (h : PackageKept src m m') :
    src.info m' 0 = src.info m 0 := by
  have hcut := congrArg (List.take fwInfoSize) h
  rw [FalPartition.bytes, FalPartition.bytes, Nor.read_take _ _ _ (Nat.le_add_right _ _),
    Nor.read_take _ _ _ (Nat.le_add_right _ _)] at hcut
  rw [FalPartition.info, FalPartition.info, FalPartition.bytes, FalPartition.bytes, hcut]

theorem PackageKept.trans {m m' m'' : Flash} (h : PackageKept src m m')
    (h' : PackageKept src m' m'') : PackageKept src m m'' := by
  rw [PackageKept, h.info_eq] at h'
  exact h'.trans h

theorem packageKept_of_sameElsewhere {m m' : Flash} (hdst : dst ∈ L.parts) (hsrc : src ∈ L.parts)
    (hne : dst ≠ src) (hfits : fwInfoSize + (src.info m 0).pkgSize ≤ src.len)
    (h : dst.SameElsewhere m m') : PackageKept src m m' :=
  h.bytes_eq hdst hsrc hne (by omega)

/-- The release sign lies behind the package. -/
theorem le_releaseSignPos (h : fwInfoSize + info.pkgSize < 2147483648) :
    fwInfoSize + info.pkgSize ≤ releaseSignPos info := by
  have h96 : fwInfoSize = 96 := rfl
  rw [releaseSignPos, u32_of_lt (by omega)]
  omega

/-- Nothing is erased for a package that is encrypted or compressed in a way the bootloader does not
know, or whose image does not fit its target. -/
def Refused (info : FwInfo) (dst : FalPartition) : Prop :=
  ¬ CryptSupported info ∨ ¬ CmprsSupported info ∨ dst.len < info.rawSize

theorem wp_qbtFwRelease_refused (hcalm : Calm env) {dstName srcName : PartName}
    (hdst : falPartitionFind L (dstName.get ram) = some dst) (h : Refused ram.fwInfo dst) :
    (qbtFwRelease L fuel dstName srcName ram).wp (world L env)
      (fun r s' => r.2 = false ∧ s'.flash = s.flash) (fun _ _ => False) s := by
  rw [qbtFwRelease, hdst]
  split
  · exact ⟨rfl, rfl⟩
  rename_i ram₁ h₁
  split
  · exact ⟨rfl, rfl⟩
  rename_i ram₂ h₂
  rcases h with hcrypt | hcmprs | hraw
  · exact absurd (cryptSupported_of_qbtFwDecryptInit h₁) hcrypt
  · exact absurd (cmprsSupported_of_qbtFwDecompressInit h₂) hcmprs
  rw [Prog.wp_bind]
  refine wp_kprintf (fun hcut => absurd hcalm hcut) fun s₁ hs₁ _ => ?_
  have hlt := le32_lt ram.fwInfo.bytes 84
  rw [Prog.wp_bind, eraseTarget, Prog.wp_bind,
    falPartitionErase_out (by rw [Nat.zero_add]; exact hraw) (by rw [Nat.zero_add]; exact hlt)]
  exact ⟨rfl, hs₁⟩

theorem wp_qbtFwUpdate_refused (hcalm : Calm env) {dstName srcName : PartName}
    (hdst : falPartitionFind L (dstName.get ram) = some dst) (h : Refused ram.fwInfo dst) :
    (qbtFwUpdate L fuel dstName srcName ram).wp (world L env)
      (fun r s' => r.2 = false ∧ s'.flash = s.flash) (fun _ _ => False) s := by
  rw [qbtFwUpdate]
  split
  · exact ⟨rfl, rfl⟩
  rw [Prog.wp_bind]
  refine Prog.wp_imp (wp_qbtFwRelease_refused hcalm hdst h) fun r s₁ hr => ?_
  obtain ⟨ram₁, ok⟩ := r
  obtain ⟨rfl, hs₁⟩ := hr
  exact ⟨rfl, hs₁⟩

/-! ## The commands -/

/-- A command that uses the package of a partition. -/
inductive PackageUse where
  | release
  | resume
  | clone (dstName : List UInt8)

/-- What the shell runs for it on the partition `name`. -/
def PackageUse.run (L : Layout) (fuel : ℕ) (name : List UInt8) (ram : Ram P) :
    PackageUse → Code (Ram P × Bool)
  | release => qbtReleaseFromPart L fuel name false ram
  | resume => qbtAppResumeFrom L fuel name ram
  | clone dstName => shellClone L fuel name dstName ram

section

variable {m : Flash}

end

/-! ## Cloning -/

/-- What an accepting run of `qbt_fw_check` leaves. -/
theorem Accepts.run (hcalm : Calm env) (hsrc : falPartitionFind L name = some src)
    (h : Accepts L env fuel name ram s) : ∃ ram₁ s₁,
      (qbtFwCheck L fuel name ram).run (world L env) s = .done (ram₁, true) s₁ ∧
        ram₁.fwInfo = src.info s.flash 0 ∧ s₁.flash = s.flash := by
  obtain ⟨ram₁, s₁, hrun⟩ := h
  have hwp : (qbtFwCheck L fuel name ram).wp (world L env)
      (fun r s' => r.1.fwInfo = src.info s.flash 0 ∧ s'.flash = s.flash)
      (fun _ s' => s'.flash = s.flash) s := wp_qbtFwCheck_info hcalm hsrc s
  rw [Prog.wp_iff_run, hrun] at hwp
  exact ⟨ram₁, s₁, hrun, hwp⟩

end RtThreadOta
