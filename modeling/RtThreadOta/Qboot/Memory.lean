import RtThreadOta.Qboot.Survival

/-!
# What a check takes from memory

Every call finds the buffers as the last one left them. Checking a package reads of them only what it
has put there itself, except that decryption works in whole blocks: a package that ends within a block
is decrypted together with what the buffer held before. So two checks of one flash agree, whatever was
in memory, unless that happens.
-/

namespace RtThreadOta

open Interaction Words

variable {L : Layout} {P : Codecs} {τ : Type} {env : Env} {src : FalPartition} {name : List UInt8}
  {fuel : ℕ} {ram ram' : Ram P} {s : Board} {info : FwInfo} {sink : Sink τ}

/-- Two states of zlib that are one, and the bytes held back from the package. -/
structure SameStream (ram ram' : Ram P) : Prop where
  strm : ram'.strm = ram.strm
  remainLen : ram'.gzipRemainLen = ram.gzipRemainLen
  remain : ram'.gzipRemainBuf.slice 0 ram.gzipRemainLen = ram.gzipRemainBuf.slice 0 ram.gzipRemainLen

/-- Two memories that hold the same of a package: the bytes in `cmprs_buf` and what the cipher and zlib
carry on. -/
structure SameLive (info : FwInfo) (cmprsLen : ℕ) (ram ram' : Ram P) : Prop where
  fits : cmprsLen ≤ qbootCmprsBufSize
  cmprs : ram'.cmprsBuf.slice 0 cmprsLen = ram.cmprsBuf.slice 0 cmprsLen
  iv : info.cryptType = qbootAlgoCryptAes → ram'.aesIv = ram.aesIv
  iv_length : info.cryptType = qbootAlgoCryptAes → ram.aesIv.length = 16
  stream : info.cmprsType = qbootAlgoCmprsGzip → SameStream ram ram'

/-- Two ends of an arm that are one for what follows. -/
def ArmAlike (info : FwInfo) (r r' : ArmEnd P τ) : Prop :=
  r'.2 = r.2 ∧ (r.2.2 ≠ none → SameLive info r.2.1 r.1 r'.1)

/-- Two runs in one world that have done the same so far. -/
def InStep {α : Type} (R : α → α → Prop) : α → α → Board → Board → Prop :=
  fun a a' t t' => R a a' ∧ t' = t

theorem ArmAlike.none (n : ℕ) : ArmAlike (τ := τ) info (ram, n, none) (ram', n, none) :=
  ⟨rfl, fun h => absurd rfl h⟩

/-! ## The arms -/

section Arms

variable {cmprsLen pos writeLen : ℕ} {st : τ}

theorem alike_noneArm (h : SameLive info cmprsLen ram ram')
    (hgzip : info.cmprsType ≠ qbootAlgoCmprsGzip) :
    Prog.Alike (world L env) (world L env) (noneArm sink ram cmprsLen st pos)
      (noneArm sink ram' cmprsLen st pos) (InStep (ArmAlike info)) s s := by
  rw [noneArm, noneArm, h.cmprs]
  refine Prog.Alike.bind (Prog.alike_self (wp_trivial _) fun r t _ => ?_)
  cases r with
  | none => exact ⟨.none 0, rfl⟩
  | some st =>
    exact ⟨⟨rfl, fun _ => ⟨Nat.zero_le _, rfl, h.iv, h.iv_length, fun hg => absurd hg hgzip⟩⟩, rfl⟩

theorem alike_gzipArmLoop (hkeep : ∀ n, sink.keepLen n ≤ n) (h : SameStream ram ram')
    (hnext : ram'.nextIn = ram.nextIn)
    (hiv : info.cryptType = qbootAlgoCryptAes → ram'.aesIv = ram.aesIv)
    (hivLen : info.cryptType = qbootAlgoCryptAes → ram.aesIv.length = 16) :
    Prog.Alike (world L env) (world L env) (gzipArmLoop sink cmprsLen fuel ram st pos writeLen)
      (gzipArmLoop sink cmprsLen fuel ram' st pos writeLen) (InStep (ArmAlike info)) s s := by
  have h32 : gzipRemainBufSize = 32 := rfl
  induction fuel generalizing ram ram' st writeLen s with
  | zero => exact Prog.alike_halt _
  | succ fuel ih =>
    rw [gzipArmLoop, gzipArmLoop, h.strm, h.remainLen, h.remain, hnext]
    dsimp only
    split
    · exact ⟨.none 0, rfl⟩
    rename_i out _
    generalize ram.gzipRemainBuf.slice 0 ram.gzipRemainLen ++ out = decmprs
    generalize hn : decmprs.length - decmprs.length % gzipRemainBufSize = n
    have hmod : decmprs.length % gzipRemainBufSize ≤ decmprs.length := Nat.mod_le _ _
    have hlt : decmprs.length % gzipRemainBufSize < gzipRemainBufSize := Nat.mod_lt _ (by omega)
    have hdrop : (decmprs.drop n).length = decmprs.length % gzipRemainBufSize := by
      rw [List.length_drop]
      omega
    -- what is held back was stored into both buffers
    have hheld : ∀ k ≤ decmprs.length % gzipRemainBufSize,
        (ram'.gzipRemainBuf.store 0 (decmprs.drop n)).slice 0 k =
          (ram.gzipRemainBuf.store 0 (decmprs.drop n)).slice 0 k := by
      intro k hk
      rw [← hdrop] at hk
      rw [← Buffer.take_slice hk, ← Buffer.take_slice hk, Buffer.slice_store_self (by omega),
        Buffer.slice_store_self (by omega)]
    refine Prog.Alike.bind (Prog.alike_self (wp_trivial _) fun r t _ => ?_)
    cases r with
    | none => exact ⟨.none 0, rfl⟩
    | some st' =>
      dsimp only
      split
      · split
        · refine Prog.Alike.bind (Prog.alike_self (wp_trivial _) fun st'' t' _ => ?_)
          exact ⟨⟨rfl, fun _ => ⟨Nat.zero_le _, rfl, hiv, hivLen,
            fun _ => ⟨rfl, rfl, hheld _ (hkeep _)⟩⟩⟩, rfl⟩
        · exact ⟨⟨rfl, fun _ => ⟨Nat.zero_le _, rfl, hiv, hivLen,
            fun _ => ⟨rfl, rfl, hheld _ (Nat.le_refl _)⟩⟩⟩, rfl⟩
      · exact ih ⟨rfl, rfl, hheld _ (Nat.le_refl _)⟩ rfl hiv hivLen

theorem alike_framedArmLoop {decompress : List UInt8 → List UInt8} (left : ℕ)
    (h : SameLive info cmprsLen ram ram') :
    Prog.Alike (world L env) (world L env)
      (framedArmLoop decompress sink left ram cmprsLen st pos writeLen)
      (framedArmLoop decompress sink left ram' cmprsLen st pos writeLen) (InStep (ArmAlike info))
      s s := by
  induction left generalizing ram ram' cmprsLen st writeLen s with
  | zero => exact Prog.alike_halt _
  | succ left ih =>
    have hend : InStep (ArmAlike (τ := τ) info) (ram, cmprsLen, some (st, writeLen))
        (ram', cmprsLen, some (st, writeLen)) s s := ⟨⟨rfl, fun _ => h⟩, rfl⟩
    have h4 : blockHdrSize = 4 := rfl
    have hfits := h.fits
    rw [framedArmLoop, framedArmLoop]
    by_cases hhdr : cmprsLen < blockHdrSize
    · rw [if_pos hhdr, if_pos hhdr]
      exact hend
    have hbe : be32 ram'.cmprsBuf.bytes 0 = be32 ram.cmprsBuf.bytes 0 := by
      have h5120 : 4 ≤ qbootCmprsBufSize := by decide
      rw [← be32_take ram'.cmprsBuf.bytes (n := 4) (by omega),
        ← be32_take ram.cmprsBuf.bytes (n := 4) (by omega), Buffer.bytes, Buffer.bytes,
        Buffer.take_slice h5120, Buffer.take_slice h5120, Buffer.slice_congr h.cmprs (by omega)]
    rw [if_neg hhdr, if_neg hhdr, hbe]
    dsimp only
    generalize toInt32 (be32 ram.cmprsBuf.bytes 0) = blockSize
    split
    · exact hend
    split
    · exact Prog.alike_halt _
    split
    · exact hend
    rename_i hpos hint hroom
    have hblock : ram'.cmprsBuf.slice blockHdrSize blockSize.toNat =
        ram.cmprsBuf.slice blockHdrSize blockSize.toNat := Buffer.slice_congr h.cmprs (by omega)
    have hmove : ram'.cmprsBuf.slice (blockSize.toNat + blockHdrSize)
          (cmprsLen - (blockSize.toNat + blockHdrSize)) =
        ram.cmprsBuf.slice (blockSize.toNat + blockHdrSize)
          (cmprsLen - (blockSize.toNat + blockHdrSize)) := Buffer.slice_congr h.cmprs (by omega)
    rw [hblock, hmove]
    generalize decompress (ram.cmprsBuf.slice blockHdrSize blockSize.toNat) = out
    split
    · exact Prog.alike_halt _
    split
    · exact ⟨.none 0, rfl⟩
    refine Prog.Alike.bind (Prog.alike_self (wp_trivial _) fun r t _ => ?_)
    cases r with
    | none => exact ⟨.none 0, rfl⟩
    | some st' =>
      refine ih ⟨by omega, ?_, h.iv, h.iv_length, fun hgzip =>
        ⟨(h.stream hgzip).strm, (h.stream hgzip).remainLen, (h.stream hgzip).remain⟩⟩
      generalize hrest : ram.cmprsBuf.slice (blockSize.toNat + blockHdrSize)
        (cmprsLen - (blockSize.toNat + blockHdrSize)) = rest
      have hlen : rest.length = cmprsLen - (blockSize.toNat + blockHdrSize) := by
        rw [← hrest, Buffer.slice_length]
      rw [← hlen, Buffer.slice_store_self (by omega), Buffer.slice_store_self (by omega)]

theorem alike_decompressArm (hkeep : ∀ n, sink.keepLen n ≤ n)
    (h : SameLive info cmprsLen ram ram') :
    Prog.Alike (world L env) (world L env)
      (decompressArm fuel sink info.cmprsType ram cmprsLen st pos)
      (decompressArm fuel sink info.cmprsType ram' cmprsLen st pos) (InStep (ArmAlike info)) s s := by
  rw [decompressArm, decompressArm]
  split
  · rename_i hnone
    exact alike_noneArm h (by rw [hnone]; decide)
  split
  · rename_i hgzip
    have hstream := h.stream hgzip
    exact alike_gzipArmLoop hkeep ⟨hstream.strm, hstream.remainLen, hstream.remain⟩ h.cmprs h.iv h.iv_length
  split
  · exact alike_framedArmLoop _ h
  split
  · exact alike_framedArmLoop _ h
  · exact ⟨.none 0, rfl⟩

end Arms

/-! ## The check -/

/-- A read within the partition, into a buffer or over its end. -/
theorem wp_falPartitionRead_within (hcalm : Calm env) (hsrc : src ∈ L.parts) {pos len : ℕ}
    (hfit : pos + len ≤ src.len) (room : ℕ) :
    (falPartitionRead (some src) pos len room).wp (world L env)
      (fun r t => r = ((len : ℤ), some (src.bytes s.flash pos len)) ∧ len ≤ room ∧
        t.flash = s.flash) (fun _ _ => True) s := by
  have hlt := L.len_lt hsrc
  by_cases hroom : len ≤ room
  · exact wp_falPartitionRead hsrc hfit hroom (fun hcut => absurd hcalm hcut)
      (fun t ht _ => ⟨rfl, hroom, ht⟩) fun hbad => absurd (hcalm.readsQuiet _) hbad
  · rw [falPartitionRead, u32_of_lt (by omega), if_neg (by omega), if_pos (by omega)]
    trivial

theorem alike_qbtFwPkgRead (hcalm : Calm env) (hsrc : src ∈ L.parts) {pos off len : ℕ}
    (hfit : pos + len ≤ src.len) (h : SameLive info off ram ram')
    (h16 : info.cryptType = qbootAlgoCryptAes → 16 ∣ len) :
    Prog.Alike (world L env) (world L env)
      (qbtFwPkgRead (some src) pos off len ram info.cryptType)
      (qbtFwPkgRead (some src) pos off len ram' info.cryptType)
      (InStep fun r r' => r'.2 = r.2 ∧ (r.2 = true → SameLive info (off + len) r.1 r'.1)) s s := by
  have hfits := h.fits
  -- bytes behind what both buffers hold
  have hload : ∀ data : List UInt8, data.length = len → off + len ≤ qbootCmprsBufSize →
      (ram'.cmprsBuf.store off data).slice 0 (off + len) =
        (ram.cmprsBuf.store off data).slice 0 (off + len) := by
    rintro data rfl hroom
    rw [Buffer.slice_store_append hroom, Buffer.slice_store_append hroom, h.cmprs]
  rw [qbtFwPkgRead, qbtFwPkgRead]
  by_cases hnone : info.cryptType = qbootAlgoCryptNone
  · rw [if_pos hnone, if_pos hnone]
    refine Prog.Alike.bind (Prog.alike_self (wp_falPartitionRead_within hcalm hsrc hfit _) ?_)
    rintro _ t ⟨rfl, hroom, -⟩
    dsimp only
    rw [if_neg (by omega)]
    refine ⟨⟨rfl, fun _ => ⟨by omega, hload _ (FalPartition.bytes_length ..) (by omega), h.iv,
      h.iv_length, fun hgzip => ?_⟩⟩, rfl⟩
    exact ⟨(h.stream hgzip).strm, (h.stream hgzip).remainLen, (h.stream hgzip).remain⟩
  rw [if_neg hnone, if_neg hnone]
  by_cases haes : info.cryptType = qbootAlgoCryptAes
  swap
  · rw [if_neg haes, if_neg haes]
    exact ⟨⟨rfl, fun hfalse => Bool.noConfusion hfalse⟩, rfl⟩
  rw [if_pos haes, if_pos haes]
  refine Prog.Alike.bind (Prog.alike_self (wp_falPartitionRead_within hcalm hsrc hfit _) ?_)
  rintro _ t ⟨rfl, hroom, -⟩
  dsimp only
  obtain ⟨k, rfl⟩ := h16 haes
  have hblocks : aesBlocks (16 * k) = k := by rw [aesBlocks]; omega
  have hstored : ∀ buf : Buffer qbootBufSize,
      (storeRead buf 0 (some (src.bytes s.flash pos (16 * k)))).slice 0 (16 * k) =
        src.bytes s.flash pos (16 * k) := by
    intro buf
    have hself := @Buffer.slice_store_self _ buf 0 (src.bytes s.flash pos (16 * k))
      (by rw [FalPartition.bytes_length]; omega)
    rwa [FalPartition.bytes_length] at hself
  rw [if_neg (by omega), qbtAesDecrypt, qbtAesDecrypt, hblocks, Nat.mul_comm k 16, hstored, hstored]
  dsimp only
  rw [h.iv haes]
  have hcipher : k * 16 ≤ (src.bytes s.flash pos (16 * k)).length := by
    rw [FalPartition.bytes_length]
    omega
  have hlen := Cbc.decrypt_fst_length (P.aesDec_length qbootAesKey) k (h.iv_length haes) hcipher
  split
  · exact Prog.alike_halt _
  · rename_i hguard
    rw [not_or] at hguard
    refine ⟨⟨rfl, fun _ => ⟨by omega, hload _ (by omega) (by omega), fun _ => rfl, fun _ => ?_,
      fun hgzip => ?_⟩⟩, rfl⟩
    · exact Cbc.decrypt_snd_length k (h.iv_length haes) hcipher
    · exact ⟨(h.stream hgzip).strm, (h.stream hgzip).remainLen, (h.stream hgzip).remain⟩

/-- The loop over a package, when its calls agree. -/
theorem alike_pkgLoop {call : τ → ℕ → Ram P → ℕ → Code (ArmEnd P τ)} (hcalm : Calm env)
    (hsrc : src ∈ L.parts) (hfits : fwInfoSize + info.pkgSize ≤ src.len)
    (hcall : ∀ st pos (ram ram' : Ram P) cmprsLen s, SameLive info cmprsLen ram ram' →
      Prog.Alike (world L env) (world L env) (call st pos ram cmprsLen) (call st pos ram' cmprsLen)
        (InStep (ArmAlike info)) s s) {st : τ} {pos rp cmprsLen : ℕ}
    (hrp : rp ≤ fwInfoSize + info.pkgSize)
    (h16 : info.cryptType = qbootAlgoCryptAes → 16 ∣ fwInfoSize + info.pkgSize - rp)
    (h : SameLive info cmprsLen ram ram') :
    Prog.Alike (world L env) (world L env)
      (pkgLoop call (some src) info fuel ram st pos rp cmprsLen)
      (pkgLoop call (some src) info fuel ram' st pos rp cmprsLen) (InStep fun r r' => r'.2 = r.2)
      s s := by
  have hlen := L.len_lt hsrc
  have hread : qbootCmprsReadSize = 1024 := rfl
  have hbuf : qbootCmprsBufSize = 5120 := rfl
  induction fuel generalizing ram ram' st pos rp cmprsLen s with
  | zero => exact Prog.alike_halt _
  | succ fuel ih =>
    rw [pkgLoop, pkgLoop]
    by_cases hlt : pos < info.rawSize
    swap
    · rw [if_neg hlt, if_neg hlt]
      exact ⟨rfl, rfl⟩
    have hn : readLen qbootCmprsReadSize (subU32 (u32 (info.pkgSize + fwInfoSize)) rp) =
        min qbootCmprsReadSize (info.pkgSize + fwInfoSize - rp) :=
      readLen_eq (by omega) (by omega)
    rw [if_pos hlt, if_pos hlt, hn]
    generalize hmin : min qbootCmprsReadSize (info.pkgSize + fwInfoSize - rp) = n
    have hfits' := h.fits
    dsimp only
    refine Prog.Alike.bind ((alike_qbtFwPkgRead hcalm hsrc (by omega) h fun haes => ?_).mono ?_)
    · have := h16 haes
      omega
    rintro ⟨ram₁, ok⟩ ⟨ram₁', ok'⟩ t _ ⟨⟨hok, hlive⟩, rfl⟩
    obtain rfl : ok' = ok := hok
    cases ok' with
    | false => exact ⟨rfl, rfl⟩
    | true =>
      have hlive := hlive rfl
      have hfits₁ := hlive.fits
      simp only [Bool.not_true, Bool.false_eq_true, if_false]
      rw [u32_of_lt (n := cmprsLen + n) (by omega)]
      refine Prog.Alike.bind ((hcall _ _ _ _ _ _ hlive).mono ?_)
      rintro ⟨ram₂, res⟩ ⟨ram₂', res'⟩ t₂ _ ⟨⟨hres, hlive₂⟩, rfl⟩
      obtain rfl : res' = res := hres
      obtain ⟨cmprsLen', res⟩ := res'
      cases res with
      | none => exact ⟨rfl, rfl⟩
      | some r =>
        dsimp only
        rw [u32_of_lt (n := rp + n) (by omega)]
        refine ih (by omega) (fun haes => ?_) (hlive₂ (by simp))
        have := h16 haes
        omega

theorem SameLive.init {ram₁ ram₂ : Ram P} (h₁ : qbtFwDecryptInit info.cryptType ram = some ram₁)
    (h₂ : qbtFwDecompressInit info.cmprsType ram₁ = some ram₂) (ram' : Ram P) :
    ∃ ram₁' ram₂', qbtFwDecryptInit info.cryptType ram' = some ram₁' ∧
      qbtFwDecompressInit info.cmprsType ram₁' = some ram₂' ∧ SameLive info 0 ram₂ ram₂' := by
  -- the cipher starts from its fixed vector
  obtain ⟨ram₁', h₁', hiv⟩ : ∃ ram₁', qbtFwDecryptInit info.cryptType ram' = some ram₁' ∧
      (info.cryptType = qbootAlgoCryptAes → ram₁'.aesIv = qbootAesIv ∧ ram₁.aesIv = qbootAesIv) := by
    rw [qbtFwDecryptInit] at h₁ ⊢
    by_cases hnone : info.cryptType = qbootAlgoCryptNone
    · exact ⟨ram', if_pos hnone, fun haes => by rw [hnone] at haes; cases haes⟩
    rw [if_neg hnone] at h₁ ⊢
    by_cases haes : info.cryptType = qbootAlgoCryptAes
    · rw [if_pos haes] at h₁
      obtain rfl := Option.some.inj h₁
      exact ⟨_, if_pos haes, fun _ => ⟨rfl, rfl⟩⟩
    · rw [if_neg haes] at h₁
      cases h₁
  have hlive : ∀ r r' : Ram P, r.aesIv = ram₁.aesIv → r'.aesIv = ram₁'.aesIv →
      (info.cmprsType = qbootAlgoCmprsGzip → SameStream r r') → SameLive info 0 r r' := by
    intro r r' hr hr' hstream
    refine ⟨Nat.zero_le _, rfl, fun haes => ?_, fun haes => ?_, hstream⟩
    · rw [hr, hr', (hiv haes).1, (hiv haes).2]
    · rw [hr, (hiv haes).2]
      rfl
  rw [qbtFwDecompressInit] at h₂
  refine ⟨ram₁', ?_⟩
  rw [qbtFwDecompressInit]
  by_cases hnone : info.cmprsType = qbootAlgoCmprsNone
  · rw [if_pos hnone] at h₂
    obtain rfl := Option.some.inj h₂
    exact ⟨_, h₁', if_pos hnone, hlive _ _ rfl rfl fun hgzip => by rw [hnone] at hgzip; cases hgzip⟩
  rw [if_neg hnone] at h₂ ⊢
  by_cases hgzip : info.cmprsType = qbootAlgoCmprsGzip
  · rw [if_pos hgzip] at h₂
    obtain rfl := Option.some.inj h₂
    exact ⟨_, h₁', if_pos hgzip, hlive _ _ rfl rfl fun _ => ⟨rfl, rfl, rfl⟩⟩
  rw [if_neg hgzip] at h₂ ⊢
  split at h₂
  · obtain rfl := Option.some.inj h₂
    exact ⟨_, h₁', if_pos ‹_›, hlive _ _ rfl rfl fun h => absurd h hgzip⟩
  rename_i hqlz
  rw [if_neg hqlz]
  split at h₂
  · obtain rfl := Option.some.inj h₂
    exact ⟨_, h₁', if_pos ‹_›, hlive _ _ rfl rfl fun h => absurd h hgzip⟩
  · cases h₂

/-- Whether a cipher or a compression is known does not depend on memory. -/
theorem qbtFwDecryptInit_none {cryptType : ℕ} (h : qbtFwDecryptInit cryptType ram = none)
    (ram' : Ram P) : qbtFwDecryptInit cryptType ram' = none := by
  rw [qbtFwDecryptInit] at h ⊢
  split at h
  · cases h
  rename_i hnone
  split at h
  · cases h
  · rename_i haes
    rw [if_neg hnone, if_neg haes]

theorem qbtFwDecompressInit_none {cmprsType : ℕ} (h : qbtFwDecompressInit cmprsType ram = none)
    (ram' : Ram P) : qbtFwDecompressInit cmprsType ram' = none := by
  rw [qbtFwDecompressInit] at h ⊢
  split at h
  · cases h
  rename_i hnone
  split at h
  · cases h
  rename_i hgzip
  split at h
  · cases h
  rename_i hqlz
  split at h
  · cases h
  · rename_i hflz
    rw [if_neg hnone, if_neg hgzip, if_neg hqlz, if_neg hflz]

theorem alike_qbtAppCrcCheck (hcalm : Calm env) (hsrc : falPartitionFind L name = some src)
    (hfw : ram.fwInfo = info) (hfw' : ram'.fwInfo = info)
    (hfits : fwInfoSize + info.pkgSize ≤ src.len)
    (h16 : info.cryptType = qbootAlgoCryptAes → 16 ∣ info.pkgSize) :
    Prog.Alike (world L env) (world L env) (qbtAppCrcCheck L fuel name ram)
      (qbtAppCrcCheck L fuel name ram') (InStep fun r r' => r'.2 = r.2) s s := by
  rw [qbtAppCrcCheck, qbtAppCrcCheck, hfw, hfw', hsrc]
  dsimp only
  cases h₁ : qbtFwDecryptInit info.cryptType ram with
  | none =>
    rw [qbtFwDecryptInit_none h₁ ram']
    exact ⟨rfl, rfl⟩
  | some ram₁ =>
  cases h₂ : qbtFwDecompressInit info.cmprsType ram₁ with
  | none =>
    cases h₁' : qbtFwDecryptInit info.cryptType ram' with
    | none =>
      rw [qbtFwDecryptInit_none h₁' ram] at h₁
      cases h₁
    | some ram₁' =>
      dsimp only
      rw [h₂, qbtFwDecompressInit_none h₂ ram₁']
      exact ⟨rfl, rfl⟩
  | some ram₂ =>
    obtain ⟨ram₁', ram₂', h₁', h₂', hlive⟩ := SameLive.init h₁ h₂ ram'
    rw [h₁']
    dsimp only
    rw [h₂, h₂']
    dsimp only
    have hcall : ∀ (crc32 : UInt32) (pos : ℕ) (r r' : Ram P) (cmprsLen : ℕ) (t : Board),
        SameLive info cmprsLen r r' → Prog.Alike (world L env) (world L env)
          (qbtAppCrcCal fuel crc32 (info.rawSize - pos) r cmprsLen info.cmprsType)
          (qbtAppCrcCal fuel crc32 (info.rawSize - pos) r' cmprsLen info.cmprsType)
          (InStep (ArmAlike info)) t t := by
      intro crc32 pos r r' cmprsLen t h
      exact alike_decompressArm (fun n => Nat.min_le_left n _) h
    refine Prog.Alike.bind ((alike_pkgLoop hcalm (mem_of_find hsrc) hfits hcall
      (Nat.le_add_right _ _) (fun haes => ?_) hlive).mono ?_)
    · rw [Nat.add_sub_cancel_left]
      exact h16 haes
    rintro ⟨ram₃, res⟩ ⟨ram₃', res'⟩ t _ ⟨hres, rfl⟩
    obtain rfl : res' = res := hres
    cases res' with
    | none => exact ⟨rfl, rfl⟩
    | some crc32 => exact ⟨rfl, rfl⟩

theorem alike_qbtFwCrcCheckLoop (hcalm : Calm env) (hsrc : src ∈ L.parts) {addr size pos : ℕ}
    (hfit : addr + size ≤ src.len) (hpos : pos ≤ size) (crc32 : UInt32) (hfw : ram.fwInfo = info)
    (hfw' : ram'.fwInfo = info) :
    Prog.Alike (world L env) (world L env)
      (qbtFwCrcCheckLoop (some src) addr size fuel ram pos crc32)
      (qbtFwCrcCheckLoop (some src) addr size fuel ram' pos crc32)
      (InStep fun r r' => r'.2 = r.2 ∧ r.1.fwInfo = info ∧ r'.1.fwInfo = info) s s := by
  have hlen := L.len_lt hsrc
  have hbuf : qbootCmprsBufSize = 5120 := rfl
  induction fuel generalizing ram ram' pos crc32 s with
  | zero => exact Prog.alike_halt _
  | succ fuel ih =>
    rw [qbtFwCrcCheckLoop, qbtFwCrcCheckLoop]
    by_cases hlt : pos < size
    swap
    · rw [if_neg hlt, if_neg hlt]
      exact ⟨⟨rfl, hfw, hfw'⟩, rfl⟩
    have hn : readLen qbootBufSize (subU32 (u32 size) pos) = min qbootBufSize (size - pos) :=
      readLen_eq (by omega) hpos
    rw [u32_of_lt (by omega)] at hn
    rw [if_pos hlt, if_pos hlt, hn]
    generalize hmin : min qbootBufSize (size - pos) = k
    dsimp only
    rw [u32_of_lt (n := addr + pos) (by omega)]
    refine Prog.Alike.bind (Prog.alike_self
      (wp_falPartitionRead_within hcalm hsrc (by omega) _) ?_)
    rintro _ t ⟨rfl, hroom, -⟩
    have hstored : ∀ buf : Buffer qbootCmprsBufSize,
        (storeRead buf 0 (some (src.bytes s.flash (addr + pos) k))).slice 0 k =
          src.bytes s.flash (addr + pos) k := by
      intro buf
      have hself := @Buffer.slice_store_self _ buf 0 (src.bytes s.flash (addr + pos) k)
        (by rw [FalPartition.bytes_length]; omega)
      rwa [FalPartition.bytes_length] at hself
    dsimp only
    rw [if_neg (by omega), u32_of_lt (by omega), hstored, hstored]
    exact ih (by omega) _ hfw hfw'

theorem alike_qbtFwCrcCheck (hcalm : Calm env) (hsrc : falPartitionFind L name = some src)
    {addr size : ℕ} (hfit : addr + size ≤ src.len) (crc : ℕ) (hfw : ram.fwInfo = info)
    (hfw' : ram'.fwInfo = info) :
    Prog.Alike (world L env) (world L env) (qbtFwCrcCheck L fuel name addr size crc ram)
      (qbtFwCrcCheck L fuel name addr size crc ram')
      (InStep fun r r' => r'.2 = r.2 ∧ r.1.fwInfo = info ∧ r'.1.fwInfo = info) s s := by
  rw [qbtFwCrcCheck, qbtFwCrcCheck, hsrc]
  refine Prog.Alike.bind ((alike_qbtFwCrcCheckLoop hcalm (mem_of_find hsrc) hfit (Nat.zero_le _) _
    hfw hfw').mono ?_)
  rintro ⟨ram₁, res⟩ ⟨ram₁', res'⟩ t _ ⟨⟨hres, hfw, hfw'⟩, rfl⟩
  obtain rfl : res' = res := hres
  cases res' with
  | none => exact ⟨⟨rfl, hfw, hfw'⟩, rfl⟩
  | some crc32 => exact ⟨⟨rfl, hfw, hfw'⟩, rfl⟩

/-- The header goes over whatever the static one was. -/
theorem alike_qbtFwInfoRead (hcalm : Calm env) (hsrc : falPartitionFind L name = some src) :
    Prog.Alike (world L env) (world L env) (qbtFwInfoRead L name ram false)
      (qbtFwInfoRead L name ram' false)
      (InStep fun r r' => r = ({ ram with fwInfo := src.info s.flash 0 }, true) ∧
        r' = ({ ram' with fwInfo := src.info s.flash 0 }, true)) s s := by
  have hmem := mem_of_find hsrc
  have hfit := (L.sound src hmem).header_fits
  rw [qbtFwInfoRead, qbtFwInfoRead, hsrc]
  refine Prog.Alike.bind (Prog.alike_self
    (wp_falPartitionRead_within hcalm hmem (by omega : 0 + fwInfoSize ≤ src.len) _) ?_)
  rintro _ t ⟨rfl, -, -⟩
  dsimp only
  rw [if_neg (by omega)]
  have hread : ∀ info : FwInfo,
      storeRead info 0 (some (src.bytes s.flash 0 fwInfoSize)) = src.info s.flash 0 := by
    intro info
    refine Buffer.ext_bytes ?_
    rw [storeRead, Buffer.bytes_store_full _ (FalPartition.bytes_length ..),
      FalPartition.info_bytes]
  rw [hread, hread]
  exact ⟨⟨rfl, rfl⟩, rfl⟩

/-- **The verdict of `qbt_fw_check` is about the flash**: whatever is in memory, a package that is not
encrypted, or whose body is whole blocks, is accepted or not. -/
theorem Accepts.of_ram (hcalm : Calm env) (hsrc : falPartitionFind L name = some src)
    (h16 : (src.info s.flash 0).cryptType = qbootAlgoCryptAes → 16 ∣ (src.info s.flash 0).pkgSize)
    (h : Accepts L env fuel name ram s) (ram' : Ram P) : Accepts L env fuel name ram' s := by
  have hmem := mem_of_find hsrc
  have hfits := (h.wellStored hcalm hsrc).fits
  have hexist : qbtPartIsExist L name = true := by
    rw [qbtPartIsExist, hsrc]
    rfl
  have halike : Prog.Alike (world L env) (world L env) (qbtFwCheck L fuel name ram)
      (qbtFwCheck L fuel name ram') (InStep fun r r' => r'.2 = r.2) s s := by
    rw [qbtFwCheck, qbtFwCheck, hexist]
    show Prog.Alike _ _ (qbtFwInfoRead L name ram false >>= _)
      (qbtFwInfoRead L name ram' false >>= _) _ _ _
    refine Prog.Alike.bind ((alike_qbtFwInfoRead hcalm hsrc).mono ?_)
    rintro _ _ _ t ⟨⟨rfl, rfl⟩, rfl⟩
    generalize src.info s.flash 0 = info at h16 hfits
    dsimp only
    cases qbtFwInfoCheck info with
    | false => exact ⟨rfl, rfl⟩
    | true =>
      show Prog.Alike _ _ (qbtFwCrcCheck L fuel name _ _ _ _ >>= _)
        (qbtFwCrcCheck L fuel name _ _ _ _ >>= _) _ _ _
      have hcrc : ∀ {r r' : Ram P} (t : Board), r.fwInfo = info → r'.fwInfo = info →
          Prog.Alike (world L env) (world L env)
            (qbtFwCrcCheck L fuel name fwInfoSize info.pkgSize info.pkgCrc r)
            (qbtFwCrcCheck L fuel name fwInfoSize info.pkgSize info.pkgCrc r')
            (InStep fun r r' => r'.2 = r.2 ∧ r.1.fwInfo = info ∧ r'.1.fwInfo = info) t t :=
        fun t hr hr' => alike_qbtFwCrcCheck hcalm hsrc hfits _ hr hr'
      refine Prog.Alike.bind ((hcrc t (by rfl) (by rfl)).mono ?_)
      rintro ⟨ram₁, ok⟩ ⟨ram₁', ok'⟩ t₁ _ ⟨⟨hok, hfw, hfw'⟩, rfl⟩
      obtain rfl : ok' = ok := hok
      cases ok' with
      | false => exact ⟨rfl, rfl⟩
      | true =>
        have hfw : ram₁.fwInfo = info := hfw
        have hfw' : ram₁'.fwInfo = info := hfw'
        simp only [Bool.not_true, Bool.false_eq_true, if_false]
        rw [hfw, hfw']
        split
        · exact alike_qbtAppCrcCheck hcalm hsrc hfw hfw' hfits h16
        · exact ⟨rfl, rfl⟩
  obtain ⟨ram₁, s₁, hrun⟩ := h
  obtain ⟨⟨ram₁', ok⟩, s₁', hrun', hok, rfl⟩ := halike.done hrun
  obtain rfl : ok = true := hok
  exact ⟨ram₁', _, hrun'⟩

end RtThreadOta
