import Mathlib.Logic.Relation
import RtThreadOta.Qboot.PowerLoss
import RtThreadOta.RoundTrip.Installable

/-!
# An update that power losses do not stop

A package for the application stays in the download partition, and its release sign is set only behind a
release that said yes. So the boots keep an invariant, wherever they lose their power and whatever erases
and writes fail in them: the package is there, and when its sign is set its image is in the application
partition. From there a boot in which nothing fails installs the image and starts it, or loses its power.
-/

namespace RtThreadOta

open Interaction Nor Words

variable {L : Layout} {P : Codecs} {env : Env} {dst src : FalPartition} {fuel : ℕ} {s : Board}
  {ram : Ram P} {m₀ m m' : Flash}

/-! ## The package and its image -/

/-- The package is there, and its image is in the application partition. -/
structure Installed (P : Codecs) (fuel : ℕ) (dst src : FalPartition) (m₀ m : Flash) : Prop where
  kept : PackageKept src m₀ m
  image : dst.bytes m 0 (src.info m₀ 0).rawSize = packageImage P fuel src m₀

/-- The release sign has room behind the package, and is set. -/
def SignSet (src : FalPartition) (m : Flash) (info : FwInfo) : Prop :=
  SignFits src info ∧ Signed src m info

/-- What the boots keep: the package, and its image where it is signed. -/
structure Holding (P : Codecs) (fuel : ℕ) (dst src : FalPartition) (m₀ m : Flash) : Prop where
  kept : PackageKept src m₀ m
  installed : SignSet src m (src.info m₀ 0) → Installed P fuel dst src m₀ m

theorem Installed.holding (h : Installed P fuel dst src m₀ m) : Holding P fuel dst src m₀ m :=
  ⟨h.kept, fun _ => h⟩

section Package

/-- A package that is kept has the same body. -/
theorem PackageKept.body_eq (h : PackageKept src m₀ m) :
    src.body m (src.info m₀ 0) = src.body m₀ (src.info m₀ 0) := by
  have hdrop := congrArg (List.drop fwInfoSize) h
  simp only [FalPartition.bytes, Nor.read_drop _ _ _ (Nat.le_add_right _ _),
    Nat.add_sub_cancel_left, Nat.add_zero] at hdrop
  exact hdrop

/-- So it decodes to the same. -/
theorem PackageKept.releaseDrive_eq (h : PackageKept src m₀ m) :
    releaseDrive P fuel src m (src.info m₀ 0) = releaseDrive P fuel src m₀ (src.info m₀ 0) := by
  rw [releaseDrive, releaseDrive, FalPartition.plain, FalPartition.plain, h.body_eq]

/-- And it is accepted from any memory. -/
theorem Installable.accepts (h : Installable L P fuel dst src m₀) (hb : BootParts L dst src)
    (hkept : PackageKept src m₀ s.flash) (ram : Ram P) :
    Accepts L calmEnv fuel qbootDownloadPartName ram s := by
  have hfits := (h.stored hb).fits
  have hmirror : Mirror L src src (fwInfoSize + (src.info m₀ 0).pkgSize) m₀ s.flash :=
    ⟨hb.src_mem, hb.src_mem, hfits, hfits, hkept⟩
  have hacc := (hmirror.accepts_iff calmEnv_calm hb.download hb.download rfl rfl).2 h.accepted
  apply hacc.of_ram calmEnv_calm hb.download
  rw [hkept.info_eq]
  exact h.aes

end Package

/-! ## What leaves the invariant alone -/

section Keep

variable (hb : BootParts L dst src) (h : Installable L P fuel dst src m₀)

include hb h

/-- Changes in the application partition are not seen in the package. -/
theorem Installable.kept_elsewhere (hkept : PackageKept src m₀ m) (hsame : dst.SameElsewhere m m') :
    PackageKept src m₀ m' := by
  refine hkept.trans (packageKept_of_sameElsewhere hb.dst_mem hb.src_mem hb.ne ?_ hsame)
  rw [hkept.info_eq]
  exact (h.stored hb).fits

/-- As long as the package is not signed, the application partition may hold anything. -/
theorem Holding.elsewhere (hm : Holding P fuel dst src m₀ m)
    (hunsigned : ¬ SignSet src m (src.info m₀ 0)) (hsame : dst.SameElsewhere m m') :
    Holding P fuel dst src m₀ m' := by
  refine ⟨h.kept_elsewhere hb hm.kept hsame, fun hsigned => absurd ?_ hunsigned⟩
  obtain ⟨hfit, hset⟩ := hsigned
  rw [Signed, hsame.bytes_eq hb.dst_mem hb.src_mem hb.ne hfit] at hset
  exact ⟨hfit, hset⟩

/-- The write of the sign leaves package and image alone, whatever comes of it. -/
theorem wp_qbtReleaseSignWrite_installed (hm : Installed P fuel dst src m₀ s.flash) (env : Env) :
    (qbtReleaseSignWrite L qbootDownloadPartName (src.info m₀ 0)).wp (world L env)
      (fun _ s' => Installed P fuel dst src m₀ s'.flash)
      (fun _ s' => Installed P fuel dst src m₀ s'.flash) s := by
  have hfits := (h.stored hb).fits
  have hlen := L.len_lt hb.src_mem
  have hpos : fwInfoSize + (src.info m₀ 0).pkgSize ≤ releaseSignPos (src.info m₀ 0) :=
    le_releaseSignPos (by omega)
  have hzeros : (encodeLe32 0).length = 4 := encodeLe32_length 0
  by_cases hfit : SignFits src (src.info m₀ 0)
  · have hwrites : (qbtReleaseSignWrite L qbootDownloadPartName (src.info m₀ 0)).OnlyPost
        (Op.Writes src (releaseSignPos (src.info m₀ 0)) 4) fun _ => True := by
      rw [qbtReleaseSignWrite, hb.download, falPartitionWrite]
      refine Prog.OnlyPost.bind (T := fun _ => True) ?_ fun _ _ => trivial
      split
      · trivial
      · exact Prog.onlyPost_ask ⟨_, rfl, rfl, Nat.le_refl _, by omega⟩ fun _ => trivial
    have hkeep : ∀ m', src.SameOutside (releaseSignPos (src.info m₀ 0)) 4 s.flash m' →
        Installed P fuel dst src m₀ m' := by
      intro m' hsame
      constructor
      · refine Eq.trans (Nor.read_congr fun i hi => ?_) hm.kept
        have hbyte := hsame.byte_eq (i := i) (by omega)
        rwa [FalPartition.byte, FalPartition.byte, ← Nat.add_zero src.base] at hbyte
      · have hraw : 0 + (src.info m₀ 0).rawSize ≤ dst.len := by
          have htail := Layout.tail_add hb.dst_mem
          have henough := h.enough
          have hfits := h.fits
          omega
        have himage := (hsame.elsewhere hfit).bytes_eq hb.src_mem hb.dst_mem hb.ne.symm hraw
        exact himage.trans hm.image
    exact Prog.wp_mono (wp_writes hb.src_mem hfit hwrites env s) (fun _ _ hs => hkeep _ hs.2)
      fun _ _ hs => hkeep _ hs
  · rw [SignFits, Nat.not_le] at hfit
    rw [qbtReleaseSignWrite, hb.download, falPartitionWrite_out (by rw [hzeros]; exact hfit)
      (by rw [hzeros]; exact releaseSignPos_lt _)]
    exact hm

end Keep

/-! ## Rough boots -/

/-- On a calm board the check of the sign finds it when it is set. -/
theorem wp_qbtReleaseSignCheck_calm (hb : BootParts L dst src) (info : FwInfo) :
    (qbtReleaseSignCheck L qbootDownloadPartName info).wp (world L calmEnv)
      (fun signed s' => (signed = true ↔ SignSet src s.flash info) ∧ s'.flash = s.flash)
      (fun _ _ => False) s := by
  by_cases hfit : SignFits src info
  · refine Prog.wp_imp (wp_qbtReleaseSignCheck calmEnv_calm hb.download hfit) fun signed _ ht => ?_
    rw [ht.1]
    exact ⟨⟨fun hset => ⟨hfit, hset⟩, fun hset => hset.2⟩, ht.2⟩
  · rw [qbtReleaseSignCheck_out hb.download hfit]
    exact ⟨⟨fun hfalse => Bool.noConfusion hfalse, fun hset => absurd hset.1 hfit⟩, rfl⟩

/-- So it does wherever reads go well. -/
theorem wp_qbtReleaseSignCheck_well (hb : BootParts L dst src) (hreads : ReadsWell env)
    (info : FwInfo) : (qbtReleaseSignCheck L qbootDownloadPartName info).wp (world L env)
      (fun signed s' => (signed = true ↔ SignSet src s.flash info) ∧ s'.flash = s.flash)
      (fun _ s' => s'.flash = s.flash) s :=
  wp_reads_well (only_qbtReleaseSignCheck ..) hreads
    (Prog.wp_mono (wp_qbtReleaseSignCheck_calm hb info) (fun _ _ hr => hr.1) fun _ _ _ => trivial)

/-- A line on the console changes nothing. -/
theorem wp_holding_print {α : Type} (msg : Msg) (a : α) (hm : Holding P fuel dst src m₀ s.flash) :
    (kprintf msg >>= fun _ => (Prog.ret a : Code α)).wp (world L env)
      (fun _ s' => Holding P fuel dst src m₀ s'.flash)
      (fun _ s' => Holding P fuel dst src m₀ s'.flash) s := by
  rw [Prog.wp_bind]
  refine (@Prog.wp_ask Op Op.Ans Halt Board _ _ _ (Op.print msg) _).2 ?_
  rw [world]
  cases (env s.tick (.print msg)).cut with
  | none => exact hm
  | some g => exact hm

/-- What may go wrong in a boot: the power may go at any time, and erases and writes may fail. Nobody
looks whether a read of the serial flash or the flush of gzip failed, and these do not. -/
structure Rough (P : Codecs) (fuel : ℕ) (dst src : FalPartition) (m₀ : Flash) (env : Env) : Prop where
  reads : ReadsWell env
  flush : ∀ p ∈ (releaseDrive P fuel src m₀ (src.info m₀ 0)).flushes, ∀ t bs,
    (env t (.write dst.dev (dst.offset + p) bs)).Quiet

section Rough

variable (hb : BootParts L dst src) (h : Installable L P fuel dst src m₀)
  (hrough : Rough P fuel dst src m₀ env)

include hb h hrough

/-- An update that says yes has installed the image, and any other has at least stayed in the application
partition. -/
theorem wp_qbtFwUpdate_rough (hkept : PackageKept src m₀ s.flash)
    (hfw : ram.fwInfo = src.info m₀ 0) :
    (qbtFwUpdate L fuel .ofFwInfo (.lit qbootDownloadPartName) ram).wp (world L env)
      (fun r s' => dst.SameElsewhere s.flash s'.flash ∧
        (r.2 = true → r.1.fwInfo = src.info m₀ 0 ∧ Installed P fuel dst src m₀ s'.flash))
      (fun _ s' => dst.SameElsewhere s.flash s'.flash) s := by
  have hlen := L.len_lt hb.src_mem
  have hfits := (h.stored hb).fits
  have hfind : ∀ ram' : Ram P, ram'.fwInfo = src.info m₀ 0 →
      falPartitionFind L (PartName.ofFwInfo.get ram') = some dst := by
    intro ram' hfw'
    rw [PartName.get, hfw', h.forApp]
    exact hb.app
  have hwrites : (qbtFwUpdate L fuel .ofFwInfo (.lit qbootDownloadPartName) ram).OnlyPost
      (Op.Inside dst) fun _ => True := inside_qbtFwUpdate (hfind ram hfw)
  have hinside := wp_inside_any hb.dst_mem hwrites env s
  have hyes : (qbtFwUpdate L fuel .ofFwInfo (.lit qbootDownloadPartName) ram).wp (world L env)
      (fun r s' => r.2 = true → r.1.fwInfo = src.info m₀ 0 ∧
        dst.bytes s'.flash 0 (src.info m₀ 0).rawSize = packageImage P fuel src m₀)
      (fun _ _ => True) s := by
    have hundisturbed : Undisturbed P env fuel dst src s.flash (src.info m₀ 0) :=
      ⟨hb.ne, hrough.reads.readsQuiet src, hkept.releaseDrive_eq ▸ hrough.flush, h.aes⟩
    have hexist : qbtPartIsExist L (PartName.ofFwInfo.get ram) = true := by
      rw [qbtPartIsExist, hfind ram hfw]
      rfl
    rw [qbtFwUpdate, hexist]
    simp only [Bool.not_true, Bool.false_eq_true, if_false]
    rw [Prog.wp_bind]
    refine Prog.wp_mono (Prog.wp_and
      (wp_qbtFwRelease_reported (hfind ram hfw) hb.download hfw (by omega) hundisturbed)
      (wp_inside_any hb.dst_mem (inside_qbtFwRelease (hfind ram hfw)) env s))
      (fun r s₁ hr => ?_) fun _ _ _ => trivial
    obtain ⟨ram₁, yes⟩ := r
    obtain ⟨hreported, hfw₁, -⟩ := hr
    cases yes with
    | false => exact fun hfalse => Bool.noConfusion hfalse
    | true =>
      have hfw₁ : ram₁.fwInfo = src.info m₀ 0 := hfw₁.trans hfw
      have hreleased := (hreported rfl).released
      rw [hkept.releaseDrive_eq] at hreleased
      simp only [Bool.not_true, Bool.false_eq_true, if_false]
      rw [Prog.wp_bind]
      have honly : (qbtDestPartVerify L fuel .ofFwInfo ram₁).Only Op.IsRead :=
        only_qbtDestPartVerify .ofFwInfo
      have hverify := wp_reads_well honly hrough.reads
        (Prog.wp_mono (wp_qbtDestPartVerify_info (s := s₁) calmEnv_calm (hfind ram₁ hfw₁))
          (fun _ _ hr => hr) fun _ _ _ => trivial)
      refine Prog.wp_mono hverify (fun r s₂ hr => ?_) fun _ _ _ => trivial
      obtain ⟨ram₂, ok⟩ := r
      obtain ⟨⟨hfw₂, -⟩, hs₂⟩ := hr
      cases ok with
      | false => exact fun hfalse => Bool.noConfusion hfalse
      | true =>
        simp only [Bool.not_true, Bool.false_eq_true, if_false]
        rw [Prog.wp_bind]
        refine wp_kprintf (fun _ _ => trivial) fun s₃ hs₃ _ => ?_
        intro _
        have henough := h.enough
        have hfitsOut := h.fits
        have herased := h.erased
        rw [hs₃, hs₂]
        refine ⟨hfw₂.trans (hreleased.info_eq hb.dst_mem h.fits), ?_⟩
        exact hreleased.bytes hb.dst_mem h.enough (by omega) (by omega)
  exact Prog.wp_mono (Prog.wp_and hinside hyes)
    (fun _ _ hr => ⟨hr.1.2, fun htrue =>
      ⟨(hr.2 htrue).1, h.kept_elsewhere hb hkept hr.1.2, (hr.2 htrue).2⟩⟩) fun _ _ hr => hr.1

/-- The release of the download partition keeps the invariant. -/
theorem wp_qbtReleaseFromPart_holding (hm : Holding P fuel dst src m₀ s.flash) (ram : Ram P) :
    (qbtReleaseFromPart L fuel qbootDownloadPartName true ram).wp (world L env)
      (fun _ s' => Holding P fuel dst src m₀ s'.flash)
      (fun _ s' => Holding P fuel dst src m₀ s'.flash) s := by
  rw [qbtReleaseFromPart, Prog.wp_bind]
  have honly : (qbtFwCheck L fuel qbootDownloadPartName ram).Only Op.IsRead :=
    only_qbtFwCheck qbootDownloadPartName
  have hcheck := wp_reads_well honly hrough.reads (Prog.wp_mono
    (wp_qbtFwCheck_info calmEnv_calm hb.download s) (fun _ _ hr => hr.1) fun _ _ _ => trivial)
  refine Prog.wp_mono hcheck (fun r s₁ hr => ?_) fun _ s₁ hs₁ => hs₁ ▸ hm
  obtain ⟨ram₁, ok⟩ := r
  obtain ⟨hfw, hs₁⟩ := hr
  have hfw₁ : ram₁.fwInfo = src.info m₀ 0 := hfw.trans hm.kept.info_eq
  rw [← hs₁] at hm
  cases ok with
  | false => exact hm
  | true =>
    simp only [Bool.not_true, Bool.false_eq_true, if_false, alreadyReleased, if_true]
    rw [hfw₁, Prog.wp_bind]
    refine Prog.wp_mono (wp_qbtReleaseSignCheck_well hb hrough.reads _) (fun released s₂ hs₂ => ?_)
      fun _ s₂ hs₂ => hs₂ ▸ hm
    obtain ⟨hset, hs₂⟩ := hs₂
    rw [← hs₂] at hset hm
    cases released with
    | true => exact hm
    | false =>
      have hunsigned : ¬ SignSet src s₂.flash (src.info m₀ 0) := fun hyes =>
        Bool.false_ne_true (hset.2 hyes)
      simp only [Bool.false_eq_true, if_false]
      rw [Prog.wp_bind]
      refine Prog.wp_mono (wp_qbtFwUpdate_rough hb h hrough hm.kept hfw₁) (fun r s₃ hr => ?_)
        fun _ s₃ hs₃ => hm.elsewhere hb h hunsigned hs₃
      obtain ⟨ram₃, ok⟩ := r
      obtain ⟨hsame, hyes⟩ := hr
      cases ok with
      | false => exact hm.elsewhere hb h hunsigned hsame
      | true =>
        obtain ⟨hfw₃, hdone⟩ := hyes rfl
        have hfw₃ : ram₃.fwInfo = src.info m₀ 0 := hfw₃
        simp only [Bool.not_true, Bool.false_eq_true, if_false]
        rw [hfw₃, Prog.wp_bind]
        refine Prog.wp_mono (wp_qbtReleaseSignCheck_well hb hrough.reads _) (fun signed s₄ hs₄ => ?_)
          fun _ s₄ hs₄ => hs₄ ▸ hdone.holding
        rw [← hs₄.2] at hdone
        cases signed with
        | true => exact wp_holding_print _ _ hdone.holding
        | false =>
          simp only [Bool.false_eq_true, if_false]
          rw [Prog.wp_bind]
          exact Prog.wp_mono (wp_qbtReleaseSignWrite_installed hb h hdone env)
            (fun _ _ hs => wp_holding_print _ _ hs.holding) fun _ _ hs => hs.holding

end Rough

/-! ## Jumps -/

theorem le32_read (m : Flash) (d : Dev) {a k n : ℕ} (h : k + 4 ≤ n) :
    le32 (Nor.read m d (a + k) 4) 0 = le32 (Nor.read m d a n) k := by
  have hbyte : ∀ i < 4, byteAt (Nor.read m d (a + k) 4) (0 + i) = byteAt (Nor.read m d a n) (k + i) := by
    intro i hi
    rw [byteAt, byteAt, Nor.read_getD _ _ _ (by omega), Nor.read_getD _ _ _ (by omega), Nat.zero_add,
      Nat.add_assoc]
  rw [le32, le32, hbyte 1 (by omega), hbyte 2 (by omega), hbyte 3 (by omega)]
  exact congrArg (fun b => b + _ + _ + _) (hbyte 0 (by omega))

/-- An installed image is one that is started. -/
theorem Installed.bootable (hb : BootParts L dst src) (h : Installable L P fuel dst src m₀)
    (hm : Installed P fuel dst src m₀ m) : bootable m = true := by
  have hwords := h.words
  have himage := hm.image
  rw [FalPartition.bytes, hb.dev, hb.base, Nat.add_zero] at himage
  have hstarts := h.starts
  rw [← himage, ← le32_read m .onchip (by omega : 0 + 4 ≤ (src.info m₀ 0).rawSize),
    ← le32_read m .onchip (by omega : 4 + 4 ≤ (src.info m₀ 0).rawSize)] at hstarts
  exact hstarts

theorem wp_loadFlash_any (addr size : ℕ) :
    (loadFlash addr size).wp (world L env)
      (fun bs s' => bs = Nor.read s.flash .onchip addr size ∧ s'.flash = s.flash)
      (fun _ s' => s'.flash = s.flash) s := by
  refine (@Prog.wp_ask Op Op.Ans Halt Board _ _ _ (Op.load addr size) _).2 ?_
  rw [world]
  cases (env s.tick (.load addr size)).cut with
  | none => exact ⟨rfl, rfl⟩
  | some g => rfl

/-- The jump looks at the vector words and changes nothing. -/
theorem wp_qbtJumpToApp_any :
    qbtJumpToApp.wp (world L env) (fun jumped s' => jumped = bootable s.flash ∧ s'.flash = s.flash)
      (fun _ s' => s'.flash = s.flash) s := by
  rw [qbtJumpToApp, Prog.wp_bind]
  refine Prog.wp_imp (wp_loadFlash_any _ _) fun stk s₁ h₁ => ?_
  obtain ⟨rfl, hs₁⟩ := h₁
  rw [Prog.wp_bind]
  refine Prog.wp_mono (wp_loadFlash_any _ _) (fun func s₂ h₂ => ?_) fun _ s₂ hs₂ => hs₂.trans hs₁
  obtain ⟨rfl, hs₂⟩ := h₂
  exact ⟨by rw [hs₁, RtThreadOta.bootable], hs₂.trans hs₁⟩

/-- A restore works on the application partition alone. -/
theorem inside_resumeAndJump (hb : BootParts L dst src) (name : List UInt8) (ram : Ram P) :
    (resumeAndJump L fuel name ram).OnlyPost (Op.Inside dst) fun _ => True := by
  have hprint : ∀ msg, (kprintf msg).OnlyPost (Op.Inside dst) fun _ => True :=
    fun _ => Prog.onlyPost_ask trivial fun _ => trivial
  have hload : ∀ addr size, (loadFlash addr size).OnlyPost (Op.Inside dst) fun _ => True :=
    fun _ _ => Prog.onlyPost_ask trivial fun _ => trivial
  have hresume : (qbtAppResumeFrom L fuel name ram).OnlyPost (Op.Inside dst) fun _ => True := by
    rw [qbtAppResumeFrom]
    apply ((only_qbtFwCheck name).onlyPost.mono fun _ ho => ho.inside dst).bind
    rintro ⟨ram₁, ok⟩ _
    dsimp only
    split
    · trivial
    split
    · trivial
    have hfind : falPartitionFind L ((PartName.lit qbootAppPartName).get ram₁) = some dst := hb.app
    apply (inside_qbtFwUpdate hfind).bind
    rintro ⟨ram₂, ok⟩ _
    dsimp only
    split
    · trivial
    · exact (hprint _).bind fun _ _ => trivial
  rw [resumeAndJump]
  apply hresume.bind
  rintro ⟨ram₁, ok⟩ _
  dsimp only
  split
  · have hjump : qbtJumpToApp.OnlyPost (Op.Inside dst) fun _ => True := by
      rw [qbtJumpToApp]
      exact (hload _ _).bind fun _ _ => (hload _ _).bind fun _ _ => trivial
    exact hjump.bind fun _ _ => trivial
  · trivial

/-! ## Whole boots -/

/-- A rough boot keeps the invariant, however it ends. -/
theorem wp_qbtThreadEntry_holding (hb : BootParts L dst src) (h : Installable L P fuel dst src m₀)
    (hrough : Rough P fuel dst src m₀ env) {input : BootInput} (hkey : input.factoryKey = false)
    (hm : Holding P fuel dst src m₀ s.flash) (ram : Ram P) :
    (qbtThreadEntry L fuel input ram).wp (world L env)
      (fun _ s' => Holding P fuel dst src m₀ s'.flash)
      (fun _ s' => Holding P fuel dst src m₀ s'.flash) s := by
  rw [qbtThreadEntry, hkey, factoryRestore]
  split
  · exact hm
  simp only [Bool.false_eq_true, if_false, Prog.ret_bind]
  split
  · exact hm
  rw [Prog.wp_bind]
  refine Prog.wp_imp (wp_qbtReleaseFromPart_holding hb h hrough hm ram) fun r s₁ hm₁ => ?_
  rw [Prog.wp_bind]
  refine Prog.wp_mono wp_qbtJumpToApp_any (fun jumped s₂ hj => ?_) fun _ s₂ hs₂ => hs₂ ▸ hm₁
  obtain ⟨rfl, hs₂⟩ := hj
  rw [← hs₂] at hm₁ ⊢
  split
  · exact hm₁
  · -- what is not started is not an installed image, so it may be replaced by another one
    rename_i hnot
    have hunsigned : ¬ SignSet src s₂.flash (src.info m₀ 0) := fun hset =>
      hnot ((hm₁.installed hset).bootable hb h)
    refine Prog.wp_mono (wp_inside_any hb.dst_mem (T := fun _ => True) ?_ env s₂)
      (fun _ _ hr => hm₁.elsewhere hb h hunsigned hr.2)
      fun _ _ hr => hm₁.elsewhere hb h hunsigned hr
    refine (inside_resumeAndJump hb _ _).bind fun r' _ => ?_
    split
    · trivial
    · exact (inside_resumeAndJump hb _ _).bind fun _ _ => trivial

/-- On a calm board the write of the sign sets it where it has room. -/
theorem wp_qbtReleaseSignWrite_calm (hb : BootParts L dst src) (h : Installable L P fuel dst src m₀)
    (hm : Installed P fuel dst src m₀ s.flash) :
    (qbtReleaseSignWrite L qbootDownloadPartName (src.info m₀ 0)).wp (world L calmEnv)
      (fun _ s' => Installed P fuel dst src m₀ s'.flash ∧
        (SignFits src (src.info m₀ 0) → Signed src s'.flash (src.info m₀ 0)))
      (fun _ _ => False) s := by
  have hzeros : (encodeLe32 0).length = 4 := encodeLe32_length 0
  by_cases hfit : SignFits src (src.info m₀ 0)
  · exact Prog.wp_mono (Prog.wp_and (wp_qbtReleaseSignWrite_installed hb h hm calmEnv)
      (wp_qbtReleaseSignWrite calmEnv_calm hb.download hfit)) (fun _ _ hr => ⟨hr.1, fun _ => hr.2⟩)
      fun _ _ hr => hr.2
  · have hout := hfit
    rw [SignFits, Nat.not_le] at hout
    rw [qbtReleaseSignWrite, hb.download, falPartitionWrite_out (by rw [hzeros]; exact hout)
      (by rw [hzeros]; exact releaseSignPos_lt _)]
    exact ⟨hm, fun hyes => absurd hyes hfit⟩

/-- On a calm board the update installs the image. -/
theorem wp_qbtFwUpdate_calm (hb : BootParts L dst src) (h : Installable L P fuel dst src m₀)
    (hkept : PackageKept src m₀ s.flash) (hfw : ram.fwInfo = src.info m₀ 0) :
    (qbtFwUpdate L fuel .ofFwInfo (.lit qbootDownloadPartName) ram).wp (world L calmEnv)
      (fun r s' => r.2 = true ∧ r.1.fwInfo = src.info m₀ 0 ∧ Installed P fuel dst src m₀ s'.flash)
      (fun _ _ => False) s := by
  have hlen := L.len_lt hb.src_mem
  have hfits := (h.stored hb).fits
  have htail := Layout.tail_add hb.dst_mem
  have hwords := h.words
  have henough := h.enough
  have hfitsOut := h.fits
  have herased := h.erased
  obtain ⟨d, hd⟩ : ∃ d, decoderOf P fuel (src.info m₀ 0).cmprsType = some d := by
    cases hnone : decoderOf P fuel (src.info m₀ 0).cmprsType with
    | some d => exact ⟨d, rfl⟩
    | none =>
      have hreached := h.reached
      rw [releaseDrive, hnone] at hreached
      cases hreached
  have hreleasable : Releasable L dst src .ofFwInfo (.lit qbootDownloadPartName) ram
      (src.info m₀ 0) := by
    refine ⟨?_, hb.download, hb.ne, hfw, h.crypt, h.aes, by omega, by omega⟩
    rw [PartName.get, hfw, h.forApp]
    exact hb.app
  have hdrive : releaseDrive P fuel src s.flash (src.info m₀ 0) = _ := releaseDrive_eq hd s.flash
  rw [hkept.releaseDrive_eq] at hdrive
  refine wp_qbtFwUpdate_clean calmEnv_calm hreleasable (by omega) hd hdrive h.reached h.puts h.fits
    h.erased (h.stored hb).header (fun hverify => ⟨h.enough, h.crc hverify⟩) h.fuel_le
    fun ram' s' hfw' hreleased => ⟨rfl, hfw', ?_, ?_⟩
  · exact h.kept_elsewhere hb hkept (hreleased.elsewhere hb.dst_mem)
  · exact hreleased.bytes hb.dst_mem h.enough (by omega) (by omega)

/-- On a calm board the release leaves the image installed, and the sign set where it has room. -/
theorem wp_qbtReleaseFromPart_calm (hb : BootParts L dst src) (h : Installable L P fuel dst src m₀)
    (hm : Holding P fuel dst src m₀ s.flash) (ram : Ram P) :
    (qbtReleaseFromPart L fuel qbootDownloadPartName true ram).wp (world L calmEnv)
      (fun _ s' => Installed P fuel dst src m₀ s'.flash ∧
        (SignFits src (src.info m₀ 0) → Signed src s'.flash (src.info m₀ 0)))
      (fun _ _ => False) s := by
  obtain ⟨ram₁, s₁, hrun, hfw, hs₁⟩ :=
    (h.accepts hb hm.kept ram).run calmEnv_calm hb.download
  rw [hm.kept.info_eq] at hfw
  rw [← hs₁] at hm
  rw [qbtReleaseFromPart, Prog.wp_bind, Prog.wp_iff_run, hrun]
  simp only [Bool.not_true, Bool.false_eq_true, if_false, alreadyReleased, if_true]
  rw [hfw, Prog.wp_bind]
  refine Prog.wp_imp (wp_qbtReleaseSignCheck_calm hb _) fun released s₂ hs₂ => ?_
  obtain ⟨hset, hs₂⟩ := hs₂
  rw [← hs₂] at hset hm
  cases released with
  | true => exact ⟨hm.installed (hset.1 rfl), fun _ => (hset.1 rfl).2⟩
  | false =>
    simp only [Bool.false_eq_true, if_false]
    rw [Prog.wp_bind]
    refine Prog.wp_imp (wp_qbtFwUpdate_calm hb h hm.kept hfw) fun r s₃ hr => ?_
    obtain ⟨ram₃, ok⟩ := r
    obtain ⟨rfl, hfw₃, hdone⟩ := hr
    have hfw₃ : ram₃.fwInfo = src.info m₀ 0 := hfw₃
    simp only [Bool.not_true, Bool.false_eq_true, if_false]
    -- a line on the console ends it
    have hprint : ∀ (msg : Msg) (t : Board), Installed P fuel dst src m₀ t.flash ∧
        (SignFits src (src.info m₀ 0) → Signed src t.flash (src.info m₀ 0)) →
        (kprintf msg >>= fun _ => (Prog.ret (ram₃, true) : Code (Ram P × Bool))).wp
          (world L calmEnv) (fun _ s' => Installed P fuel dst src m₀ s'.flash ∧
            (SignFits src (src.info m₀ 0) → Signed src s'.flash (src.info m₀ 0)))
          (fun _ _ => False) t := by
      intro msg t ht
      rw [Prog.wp_bind]
      refine wp_kprintf (fun hcut => absurd calmEnv_calm hcut) fun t' ht' _ => ?_
      rw [Prog.wp_ret, ht']
      exact ht
    rw [hfw₃, Prog.wp_bind]
    refine Prog.wp_imp (wp_qbtReleaseSignCheck_calm hb _) fun signed s₄ hs₄ => ?_
    obtain ⟨hset, hs₄⟩ := hs₄
    rw [← hs₄] at hset hdone
    cases signed with
    | true => exact hprint _ s₄ ⟨hdone, fun _ => (hset.1 rfl).2⟩
    | false =>
      simp only [Bool.false_eq_true, if_false]
      rw [Prog.wp_bind]
      exact Prog.wp_imp (wp_qbtReleaseSignWrite_calm hb h hdone) fun _ s₅ hs₅ => hprint _ s₅ hs₅

/-- On a calm board the boot installs the image and starts it. -/
theorem wp_qbtThreadEntry_calm (hb : BootParts L dst src) (h : Installable L P fuel dst src m₀)
    {input : BootInput} (hfal : input.falReady = true) (hkey : input.factoryKey = false)
    (hshell : input.shellKey = false) (hm : Holding P fuel dst src m₀ s.flash) (ram : Ram P) :
    (qbtThreadEntry L fuel input ram).wp (world L calmEnv)
      (fun r s' => r = .jumped ∧ Installed P fuel dst src m₀ s'.flash ∧
        (SignFits src (src.info m₀ 0) → Signed src s'.flash (src.info m₀ 0)))
      (fun _ _ => False) s := by
  rw [qbtThreadEntry, hfal, hkey, hshell, factoryRestore]
  simp only [Bool.not_true, Bool.false_eq_true, if_false, Prog.ret_bind]
  rw [Prog.wp_bind]
  refine Prog.wp_imp (wp_qbtReleaseFromPart_calm hb h hm ram) fun r s₁ hs₁ => ?_
  obtain ⟨hdone, hsigned⟩ := hs₁
  rw [Prog.wp_bind]
  refine Prog.wp_imp (wp_qbtJumpToApp ?_) fun jumped s₂ hj => ?_
  · rintro ⟨t, o, hcut⟩ _
    exact hcut rfl
  obtain ⟨rfl, hs₂, -⟩ := hj
  rw [hdone.bootable hb h, if_pos rfl]
  rw [← hs₂] at hdone hsigned
  exact ⟨rfl, hdone, hsigned⟩

/-- A boot from power-up. -/
def bootRun (L : Layout) (P : Codecs) (fuel : ℕ) (env : Env) (input : BootInput) (m : Flash) :
    Outcome Halt Board BootEnd :=
  (qbtThreadEntry L fuel input (Ram.boot P)).run (world L env) (Board.powerUp m)

/-- What a rough boot with the factory key up makes of the flash: it ends, is halted or loses its power. -/
def RoughBoot (L : Layout) (P : Codecs) (fuel : ℕ) (dst src : FalPartition) (m₀ m m' : Flash) : Prop :=
  ∃ env input, Rough P fuel dst src m₀ env ∧ input.factoryKey = false ∧
    m' = (bootRun L P fuel env input m).state.flash

theorem Holding.roughBoot (hb : BootParts L dst src) (h : Installable L P fuel dst src m₀)
    (hm : Holding P fuel dst src m₀ m) (hboot : RoughBoot L P fuel dst src m₀ m m') :
    Holding P fuel dst src m₀ m' := by
  obtain ⟨env, input, hrough, hkey, rfl⟩ := hboot
  have hwp := wp_qbtThreadEntry_holding (s := Board.powerUp m) hb h hrough hkey hm (Ram.boot P)
  rw [Prog.wp_iff_run] at hwp
  unfold bootRun
  cases hrun : (qbtThreadEntry L fuel input (Ram.boot P)).run (world L env) (Board.powerUp m) with
  | done r s' =>
    rw [hrun] at hwp
    exact hwp
  | halted x s' =>
    rw [hrun] at hwp
    exact hwp
  | cut s' =>
    rw [hrun] at hwp
    exact hwp

/-- So do any number of them. -/
theorem Holding.roughBoots (hb : BootParts L dst src) (h : Installable L P fuel dst src m₀)
    (hunsigned : ¬ SignSet src m₀ (src.info m₀ 0))
    (hboots : Relation.ReflTransGen (RoughBoot L P fuel dst src m₀) m₀ m) :
    Holding P fuel dst src m₀ m := by
  induction hboots with
  | refl => exact ⟨.refl _ _, fun hset => absurd hset hunsigned⟩
  | tail _ hboot ih => exact ih.roughBoot hb h hboot

/-- A boot in which nothing is reported to fail loses its power, which makes it a rough one, or starts the
application with the image in place. -/
theorem Holding.quietBoot (hb : BootParts L dst src) (h : Installable L P fuel dst src m₀)
    (hm : Holding P fuel dst src m₀ m) (hquiet : ∀ t o, (env t o).Quiet) {input : BootInput}
    (hfal : input.falReady = true) (hkey : input.factoryKey = false)
    (hshell : input.shellKey = false) :
    (∃ s', bootRun L P fuel env input m = .cut s' ∧ RoughBoot L P fuel dst src m₀ m s'.flash) ∨
      ∃ s', bootRun L P fuel env input m = .done .jumped s' ∧
        Installed P fuel dst src m₀ s'.flash ∧
        (SignFits src (src.info m₀ 0) → Signed src s'.flash (src.info m₀ 0)) := by
  rcases run_calm_or_cut (L := L) (qbtThreadEntry L fuel input (Ram.boot P)) hquiet (Board.powerUp m)
    with hcalm | ⟨s', hcut⟩
  · obtain ⟨r, s', hrun, rfl, hdone, hsigned⟩ := Prog.run_done_of_wp
      (wp_qbtThreadEntry_calm (s := Board.powerUp m) hb h hfal hkey hshell hm (Ram.boot P))
    exact Or.inr ⟨s', hcalm.trans hrun, hdone, hsigned⟩
  · refine Or.inl ⟨s', hcut, env, input, ⟨fun _ _ _ _ => hquiet _ _, fun _ _ _ _ => hquiet _ _⟩, hkey, ?_⟩
    rw [bootRun, hcut]
    rfl

/-! ## A boot that dies on the board -/

/-- What is only downloaded is not signed. -/
theorem Shipped.not_signSet {K : PackCodecs} {c : Compression} {encrypt : Bool} {pi : PackInfo}
    {file : List UInt8} (h : Shipped appPart downloadPart K c encrypt pi file
      (downloaded K c encrypt pi file)) :
    ¬ SignSet downloadPart (downloaded K c encrypt pi file)
      (downloadPart.info (downloaded K c encrypt pi file) 0) := by
  rintro ⟨-, hset⟩
  have hp := h.packed_header (P := .stored) bootParts_board
  have hpkg := hp.pkgSize
  have hfits : 96 + (toolBody K c encrypt file).length ≤ 1048576 := h.fits
  have h96 : fwInfoSize = 96 := rfl
  have hpos : fwInfoSize + (toolHdr K c encrypt pi file).info.pkgSize ≤
      releaseSignPos (toolHdr K c encrypt pi file).info := le_releaseSignPos (by omega)
  rw [hp.info_eq, Signed] at hset
  -- behind the package the flash is erased
  have hbyte := congrArg (fun bs => bs.getD 0 1) hset
  rw [FalPartition.bytes, Nor.read_getD _ _ _ (by omega), downloaded, FalPartition.holding] at hbyte
  have hbehind : ((toolHdr K c encrypt pi file).bytes ++ toolBody K c encrypt file).length ≤
      downloadPart.base + releaseSignPos (toolHdr K c encrypt pi file).info + 0 -
        downloadPart.base := by
    rw [List.length_append, RblHdr.bytes_length]
    omega
  rw [if_pos ⟨rfl, by omega⟩, List.getD_eq_default _ _ hbehind] at hbyte
  revert hbyte
  decide

/-- The power goes at the 40th call. -/
def dyingEnv : Env := fun t _ => if t = 40 then ⟨some fun _ => 0, fun _ => none⟩ else Fault.none

theorem dyingEnv_quiet (t : ℕ) (o : Op) : (dyingEnv t o).Quiet := by
  rw [dyingEnv]
  split
  · exact fun _ => rfl
  · exact Fault.none_quiet

/-- What such a boot leaves of an encrypted package of the test words. -/
def diedOnWords : Flash :=
  (bootRun falPartTable Codecs.stored 30 dyingEnv plainBoot
    (downloaded .stored .none true appInfo vectorWords)).state.flash

theorem shipped_vectorWords : Shipped appPart downloadPart .stored .none true appInfo vectorWords
    (downloaded .stored .none true appInfo vectorWords) :=
  shipped_downloaded rfl (by decide) (by decide) (by decide) (by decide)

theorem installable_vectorWords : Installable falPartTable Codecs.stored 30 appPart downloadPart
    (downloaded .stored .none true appInfo vectorWords) :=
  shipped_vectorWords.installable bootParts_board (fun _ => cipherInverts_stored)
    (Or.inr (Or.inr (by decide))) (by decide)

/-! ## The update -/

/-- **A downloaded update is crash-safe.** After any number of boots in which the power went or erases and
writes failed, a boot in which nothing is reported to fail loses its power, which makes it one more of
these, or starts the application with the whole image of the package in place. -/
theorem update_crashSafe (hb : BootParts L dst src) (h : Installable L P fuel dst src m₀)
    (hunsigned : ¬ SignSet src m₀ (src.info m₀ 0))
    (hboots : Relation.ReflTransGen (RoughBoot L P fuel dst src m₀) m₀ m)
    (hquiet : ∀ t o, (env t o).Quiet) {input : BootInput} (hfal : input.falReady = true)
    (hkey : input.factoryKey = false) (hshell : input.shellKey = false) :
    (∃ s', bootRun L P fuel env input m = .cut s' ∧ RoughBoot L P fuel dst src m₀ m s'.flash) ∨
      ∃ s', bootRun L P fuel env input m = .done .jumped s' ∧
        dst.bytes s'.flash 0 (src.info m₀ 0).rawSize = packageImage P fuel src m₀ ∧
        (SignFits src (src.info m₀ 0) → Signed src s'.flash (src.info m₀ 0)) := by
  have hm := Holding.roughBoots hb h hunsigned hboots
  apply (hm.quietBoot hb h hquiet hfal hkey hshell).imp_right
  rintro ⟨s', hrun, hdone, hsigned⟩
  exact ⟨s', hrun, hdone.image, hsigned⟩

/-- The test words, after a boot that died. -/
theorem update_crashSafe_vectorWords :
    (∃ s', bootRun falPartTable Codecs.stored 30 dyingEnv plainBoot diedOnWords = .cut s' ∧
      RoughBoot falPartTable Codecs.stored 30 appPart downloadPart
        (downloaded .stored .none true appInfo vectorWords) diedOnWords s'.flash) ∨
    ∃ s', bootRun falPartTable Codecs.stored 30 dyingEnv plainBoot diedOnWords = .done .jumped s' ∧
      appPart.bytes s'.flash 0 (downloadPart.info
        (downloaded .stored .none true appInfo vectorWords) 0).rawSize =
          packageImage Codecs.stored 30 downloadPart
            (downloaded .stored .none true appInfo vectorWords) ∧
      (SignFits downloadPart (downloadPart.info
        (downloaded .stored .none true appInfo vectorWords) 0) →
          Signed downloadPart s'.flash (downloadPart.info
            (downloaded .stored .none true appInfo vectorWords) 0)) :=
  update_crashSafe bootParts_board installable_vectorWords shipped_vectorWords.not_signSet
    (Relation.ReflTransGen.single ⟨dyingEnv, plainBoot,
      ⟨fun _ _ _ _ => dyingEnv_quiet _ _, fun _ _ _ _ => dyingEnv_quiet _ _⟩, rfl, rfl⟩)
    dyingEnv_quiet rfl rfl rfl

end RtThreadOta
