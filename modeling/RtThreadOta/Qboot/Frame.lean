import RtThreadOta.Qboot.CheckSpec

/-!
# Where a release writes

Whatever the flash answers and whatever the codecs make of a package, a release programs and erases
inside its target only, and the static header stays as it is while a package is decoded. So another
partition keeps its bytes.
-/

namespace RtThreadOta

open Interaction Nor Words

variable {L : Layout} {P : Codecs} {τ : Type} {env : Env} {A : Op → Prop} {At AtEnd : ℕ → Prop}
  {part dst src : FalPartition} {fuel : ℕ} {ram : Ram P} {s : Board} {info : FwInfo}

/-! ## Operations inside a partition -/

/-- A write or an erase inside the partition, or an operation that changes no flash. -/
def Op.Inside (p : FalPartition) : Op → Prop
  | .write dev offset buf => ∃ addr, dev = p.dev ∧ offset = p.offset + addr ∧
      addr + buf.length ≤ p.len
  | .erase dev offset size => ∃ addr, dev = p.dev ∧ offset = p.offset + addr ∧ addr + size ≤ p.len
  | _ => True

theorem Op.IsRead.inside {o : Op} (h : o.IsRead) (p : FalPartition) : o.Inside p := by
  cases o with
  | read dev offset size => trivial
  | _ => exact h.elim

/-- Such an operation is not seen outside the partition. -/
theorem Op.Inside.sameElsewhere (hp : part ∈ L.parts) {o : Op} (h : o.Inside part)
    (fail : ℕ → Option (ℕ → UInt8)) (m : Flash) : part.SameElsewhere m (drive L fail m o).2 := by
  cases o with
  | write dev offset buf =>
    obtain ⟨addr, rfl, rfl, hfit⟩ := h
    simp only [drive]
    rcases devWrite_eq m fail hp hfit with ⟨heq, -⟩ | ⟨-, hsame, -⟩
    · rw [heq]
      exact FalPartition.sameElsewhere_programmed hfit
    · exact hsame.elsewhere hfit
  | erase dev offset size =>
    obtain ⟨addr, rfl, rfl, hfit⟩ := h
    simp only [drive]
    rcases Nat.eq_zero_or_pos size with rfl | hsize
    · rw [devErase_zero]
      exact .refl _ _
    · rcases devErase_eq m fail hp hsize hfit with heq | ⟨-, hsame, -⟩
      · rw [heq]
        exact FalPartition.sameElsewhere_erased (eraseStop_le hp hfit)
      · exact hsame
  | read dev offset size => exact .refl _ _
  | load addr size => exact .refl _ _
  | print msg => exact .refl _ _

/-- A write that the end of the partition does not refuse. -/
theorem onlyPost_falPartitionWrite {addr : ℕ} {bs : List UInt8}
    (hlt : addr + bs.length < 4294967296) :
    (falPartitionWrite (some part) addr bs).OnlyPost (Op.Inside part)
      fun ret => 0 ≤ ret → addr + bs.length ≤ part.len := by
  rw [falPartitionWrite, u32_of_lt hlt]
  split
  · intro h
    exact absurd h (by decide)
  · exact Prog.onlyPost_ask ⟨addr, rfl, rfl, by omega⟩ fun _ _ => by omega

theorem onlyPost_falPartitionErase {addr size : ℕ} (hlt : addr + size < 4294967296) :
    (falPartitionErase (some part) addr size).OnlyPost (Op.Inside part)
      fun ret => 0 ≤ ret → addr + size ≤ part.len := by
  rw [falPartitionErase, u32_of_lt hlt]
  split
  · intro h
    exact absurd h (by decide)
  · exact Prog.onlyPost_ask ⟨addr, rfl, rfl, by omega⟩ fun _ _ => by omega

/-- A read that returns went into the buffer. -/
theorem onlyPost_falPartitionRead (hread : ∀ o, Op.IsRead o → A o) (part : Option FalPartition)
    (addr size room : ℕ) : (falPartitionRead part addr size room).OnlyPost A
      fun r => 0 ≤ r.1 → size ≤ room := by
  cases part with
  | none => trivial
  | some p =>
    rw [falPartitionRead]
    split
    · intro h
      exact absurd h (by decide)
    split
    · trivial
    · exact Prog.onlyPost_ask (hread _ trivial) fun _ _ => by omega

/-! ## Decoding -/

/-- The memory between two calls of an arm: the header, and what the buffers hold of the package. -/
structure Steady (info : FwInfo) (ram : Ram P) (cmprsLen : ℕ) : Prop where
  fwInfo : ram.fwInfo = info
  remain : info.cmprsType = qbootAlgoCmprsGzip → ram.gzipRemainLen < gzipRemainBufSize
  fits : cmprsLen ≤ qbootCmprsBufSize

/-- A sink that asks only for operations in `A` while it is at positions in `At`, where a chunk it takes
leaves it; a flush may leave it in `AtEnd`. -/
structure Sink.Stays (sink : Sink τ) (A : Op → Prop) (At AtEnd : ℕ → Prop) : Prop where
  put : ∀ st pos bs, At pos → bs.length ≤ qbootCmprsBufSize →
    (sink.put st pos bs).OnlyPost A fun r => r ≠ none → At (pos + sink.putLen bs.length)
  flush : ∀ st pos bs, At pos → bs.length < gzipRemainBufSize →
    (sink.flush st pos bs).OnlyPost A fun _ => AtEnd (pos + sink.flushLen bs.length)
  atEnd : ∀ pos, At pos → AtEnd pos
  putLen_zero : sink.putLen 0 = 0
  keepLen_le : ∀ n, sink.keepLen n ≤ n

theorem crcSink_stays (maxCalLen : ℕ) :
    (crcSink maxCalLen).Stays A (fun _ => True) fun _ => True where
  put _ _ _ _ _ := fun _ => trivial
  flush _ _ _ _ _ := trivial
  atEnd _ h := h
  putLen_zero := Nat.zero_min _
  keepLen_le n := Nat.min_le_left n _

theorem destSink_stays (hp : part ∈ L.parts) : (destSink (some part)).Stays (Op.Inside part)
    (fun pos => pos ≤ part.len) fun pos => pos ≤ part.len + gzipRemainBufSize where
  put _ pos bs hpos hbs := by
    have hlen := L.len_lt hp
    have hbuf : qbootCmprsBufSize = 5120 := rfl
    refine (onlyPost_falPartitionWrite (by omega)).bind fun ret hret => ?_
    rw [Prog.onlyPost_ret]
    split
    · exact fun h => absurd rfl h
    · exact fun _ => hret (by omega)
  flush _ pos bs hpos hbs := by
    have hlen := L.len_lt hp
    have h32 : gzipRemainBufSize = 32 := rfl
    refine (onlyPost_falPartitionWrite ?_).bind fun _ _ => ?_
    · rw [List.length_append, List.length_replicate]
      omega
    · exact Nat.add_le_add_right hpos _
  atEnd pos h := Nat.le_add_right_of_le h
  putLen_zero := rfl
  keepLen_le n := Nat.le_refl n

section Arms

variable {sink : Sink τ} {cmprsLen pos writeLen : ℕ} {st : τ}

/-- How an arm ends: memory as before, the sink at an end position. -/
def ArmEnd.Good (info : FwInfo) (AtEnd : ℕ → Prop) (pos : ℕ) (r : ArmEnd P τ) : Prop :=
  Steady info r.1 r.2.1 ∧ ∀ st n, r.2.2 = some (st, n) → AtEnd (pos + n)

theorem ArmEnd.good_none {ram' : Ram P} {n : ℕ} (h : Steady info ram' n) :
    ArmEnd.Good (τ := τ) info AtEnd pos (ram', n, none) := ⟨h, fun _ _ h => by cases h⟩

theorem ArmEnd.good_some {ram' : Ram P} {n k : ℕ} {st : τ} (h : Steady info ram' n)
    (hat : AtEnd (pos + k)) : ArmEnd.Good info AtEnd pos (ram', n, some (st, k)) := by
  refine ⟨h, fun st' k' heq => ?_⟩
  cases heq
  exact hat

theorem steady_gzipArmLoop (hsink : sink.Stays A At AtEnd) (hram : ram.fwInfo = info)
    (hremain : ram.gzipRemainLen < gzipRemainBufSize) (hat : At (pos + writeLen)) :
    (gzipArmLoop sink cmprsLen fuel ram st pos writeLen).OnlyPost A
      (ArmEnd.Good info AtEnd pos) := by
  have h32 : gzipRemainBufSize = 32 := rfl
  have hbuf : qbootBufSize = 4096 := rfl
  have hcmprs : qbootCmprsBufSize = 5120 := rfl
  induction fuel generalizing ram st writeLen with
  | zero => trivial
  | succ fuel ih =>
    rw [gzipArmLoop]
    dsimp only
    split
    · exact ArmEnd.good_none ⟨hram, fun _ => hremain, Nat.zero_le _⟩
    rename_i out hres
    have hlen := P.inflater.output_le ram.strm ram.nextIn (qbootBufSize - ram.gzipRemainLen) out hres
    have hdec : (ram.gzipRemainBuf.slice 0 ram.gzipRemainLen ++ out).length ≤ 4096 := by
      rw [List.length_append, Buffer.slice_length]
      omega
    generalize ram.gzipRemainBuf.slice 0 ram.gzipRemainLen ++ out = decmprs at hdec ⊢
    have hkeep : decmprs.length % gzipRemainBufSize < gzipRemainBufSize :=
      Nat.mod_lt _ (Nat.succ_pos _)
    have hmod : decmprs.length % gzipRemainBufSize ≤ decmprs.length := Nat.mod_le _ _
    have htake : (decmprs.take (decmprs.length - decmprs.length % gzipRemainBufSize)).length =
        decmprs.length - decmprs.length % gzipRemainBufSize := by
      rw [List.length_take]
      omega
    have hput : (sink.putSome st (pos + writeLen)
        (decmprs.take (decmprs.length - decmprs.length % gzipRemainBufSize))).OnlyPost A
          fun r => r ≠ none → At (pos + (writeLen +
            sink.putLen (decmprs.length - decmprs.length % gzipRemainBufSize))) := by
      rw [Sink.putSome, ← Nat.add_assoc]
      split
      · have := hsink.put st (pos + writeLen) (decmprs.take _) hat (by rw [htake]; omega)
        rwa [htake] at this
      · intro _
        rw [show decmprs.length - decmprs.length % gzipRemainBufSize = 0 by omega,
          hsink.putLen_zero]
        exact hat
    refine hput.bind fun r hr => ?_
    cases r with
    | none => exact ArmEnd.good_none ⟨hram, fun _ => hkeep, Nat.zero_le _⟩
    | some st' =>
      have hat' := hr (by simp)
      dsimp only
      split
      · split
        · have hdrop : (decmprs.drop (decmprs.length - decmprs.length % gzipRemainBufSize)).length =
              decmprs.length % gzipRemainBufSize := by
            rw [List.length_drop]
            omega
          refine (hsink.flush st' _ _ hat' (by omega)).bind fun _ hflush => ?_
          rw [hdrop, Nat.add_assoc] at hflush
          exact ArmEnd.good_some
            ⟨hram, fun _ => Nat.lt_of_le_of_lt (hsink.keepLen_le _) hkeep, Nat.zero_le _⟩ hflush
        · exact ArmEnd.good_some ⟨hram, fun _ => hkeep, Nat.zero_le _⟩ (hsink.atEnd _ hat')
      · exact ih hram hkeep hat'

theorem steady_framedArmLoop {decompress : List UInt8 → List UInt8} (hsink : sink.Stays A At AtEnd)
    (left : ℕ) (hram : Steady info ram cmprsLen) (hat : At (pos + writeLen)) :
    (framedArmLoop decompress sink left ram cmprsLen st pos writeLen).OnlyPost A
      (ArmEnd.Good info AtEnd pos) := by
  induction left generalizing ram cmprsLen st writeLen with
  | zero => trivial
  | succ left ih =>
    rw [framedArmLoop]
    dsimp only
    have hend : ArmEnd.Good info AtEnd pos (ram, cmprsLen, some (st, writeLen)) :=
      ArmEnd.good_some hram (hsink.atEnd _ hat)
    split
    · exact hend
    split
    · exact hend
    split
    · trivial
    split
    · exact hend
    split
    · trivial
    split
    · exact ArmEnd.good_none ⟨hram.fwInfo, hram.remain, Nat.zero_le _⟩
    rename_i hbig _
    have hfits := hram.fits
    have hbuf : qbootBufSize ≤ qbootCmprsBufSize := by decide
    refine (hsink.put st (pos + writeLen) _ hat (by omega)).bind fun r hr => ?_
    cases r with
    | none => exact ArmEnd.good_none ⟨hram.fwInfo, hram.remain, Nat.zero_le _⟩
    | some st' =>
      refine ih ⟨hram.fwInfo, hram.remain, by omega⟩ ?_
      rw [← Nat.add_assoc]
      exact hr (by simp)

theorem steady_decompressArm (hsink : sink.Stays A At AtEnd) (hram : Steady info ram cmprsLen)
    (hat : At pos) : (decompressArm fuel sink info.cmprsType ram cmprsLen st pos).OnlyPost A
      (ArmEnd.Good info AtEnd pos) := by
  have hdone : Steady info ram 0 := ⟨hram.fwInfo, hram.remain, Nat.zero_le _⟩
  rw [decompressArm]
  split
  · have hput := hsink.put st pos (ram.cmprsBuf.slice 0 cmprsLen) hat
      (by rw [Buffer.slice_length]; exact hram.fits)
    rw [Buffer.slice_length] at hput
    refine hput.bind fun r hr => ?_
    cases r with
    | none => exact ArmEnd.good_none hdone
    | some st' => exact ArmEnd.good_some hdone (hsink.atEnd _ (hr (by simp)))
  split
  · rename_i hgzip
    exact steady_gzipArmLoop hsink hram.fwInfo (hram.remain hgzip) hat
  split
  · exact steady_framedArmLoop hsink _ hram hat
  split
  · exact steady_framedArmLoop hsink _ hram hat
  · exact ArmEnd.good_none hdone

end Arms

/-- A read of the package leaves the header and fits its buffer. -/
theorem steady_qbtFwPkgRead (hread : ∀ o, Op.IsRead o → A o) (srcPart : Option FalPartition)
    {pos off len cryptType : ℕ} (hram : Steady info ram off) :
    (qbtFwPkgRead srcPart pos off len ram cryptType).OnlyPost A
      fun r => Steady info r.1 off ∧ (r.2 = true → off + len ≤ qbootCmprsBufSize) := by
  have hfits := hram.fits
  have hno : Steady info ram off ∧ (false = true → off + len ≤ qbootCmprsBufSize) :=
    ⟨hram, fun h => by cases h⟩
  rw [qbtFwPkgRead]
  split
  · refine (onlyPost_falPartitionRead hread srcPart pos len _).bind fun r hr => ?_
    dsimp only
    split
    · exact hno
    · exact ⟨⟨hram.fwInfo, hram.remain, hfits⟩, fun _ => by omega⟩
  split
  · refine (onlyPost_falPartitionRead hread srcPart pos len _).bind fun r _ => ?_
    dsimp only
    split
    · exact hno
    rw [qbtAesDecrypt]
    dsimp only
    split
    · trivial
    · rename_i hover
      refine ⟨⟨hram.fwInfo, hram.remain, hfits⟩, fun _ => ?_⟩
      simp only [aesBlocks] at hover
      omega
  · exact hno

/-- The loop over a package asks for what its calls ask for. -/
theorem steady_pkgLoop (hread : ∀ o, Op.IsRead o → A o)
    {call : τ → ℕ → Ram P → ℕ → Code (ArmEnd P τ)}
    (hcall : ∀ st pos ram cmprsLen, At pos → Steady info ram cmprsLen →
      (call st pos ram cmprsLen).OnlyPost A (ArmEnd.Good info AtEnd pos))
    (hnext : ∀ pos, AtEnd pos → u32 pos < info.rawSize → At (u32 pos))
    (srcPart : Option FalPartition) {st : τ} {pos rp cmprsLen : ℕ}
    (hat : pos < info.rawSize → At pos) (hram : Steady info ram cmprsLen) :
    (pkgLoop call srcPart info fuel ram st pos rp cmprsLen).OnlyPost A
      fun r => r.1.fwInfo = info := by
  induction fuel generalizing ram st pos rp cmprsLen with
  | zero => trivial
  | succ fuel ih =>
    rw [pkgLoop]
    split
    swap
    · exact hram.fwInfo
    rename_i hlt
    dsimp only
    generalize readLen qbootCmprsReadSize (subU32 (u32 (info.pkgSize + fwInfoSize)) rp) = len
    refine (steady_qbtFwPkgRead hread srcPart hram).bind fun r hr => ?_
    obtain ⟨ram', ok⟩ := r
    cases ok with
    | false => exact hr.1.fwInfo
    | true =>
      have hfits := hr.2 rfl
      have hu32 : u32 (cmprsLen + len) ≤ qbootCmprsBufSize := Nat.le_trans (u32_le _) hfits
      dsimp only
      refine (hcall st pos ram' _ (hat hlt) ⟨hr.1.fwInfo, hr.1.remain, hu32⟩).bind fun r' hr' => ?_
      obtain ⟨ram'', cmprsLen', res⟩ := r'
      cases res with
      | none => exact hr'.1.fwInfo
      | some r => exact ih (hnext _ (hr'.2 _ _ rfl)) hr'.1

theorem fwInfo_qbtFwDecryptInit {cryptType : ℕ} {ram₁ : Ram P}
    (h : qbtFwDecryptInit cryptType ram = some ram₁) : ram₁.fwInfo = ram.fwInfo := by
  rw [qbtFwDecryptInit] at h
  split at h
  · cases h
    rfl
  split at h
  · cases h
    rfl
  · cases h

/-- What the loop starts from. -/
theorem steady_qbtFwDecompressInit {ram₂ : Ram P}
    (h : qbtFwDecompressInit info.cmprsType ram = some ram₂) (hinfo : ram.fwInfo = info) :
    Steady info ram₂ 0 := by
  rw [qbtFwDecompressInit] at h
  split at h
  · rename_i hnone
    cases h
    refine ⟨hinfo, fun hgzip => ?_, Nat.zero_le _⟩
    rw [hnone] at hgzip
    cases hgzip
  split at h
  · cases h
    exact ⟨hinfo, fun _ => Nat.succ_pos _, Nat.zero_le _⟩
  rename_i hgzip
  have hother : ∀ ram' : Ram P, ram'.fwInfo = info → Steady info ram' 0 := fun ram' hfw =>
    ⟨hfw, fun h => absurd h hgzip, Nat.zero_le _⟩
  split at h
  · cases h
    exact hother _ hinfo
  split at h
  · cases h
    exact hother _ hinfo
  · cases h

/-! ## The checks keep the header -/

theorem fwInfo_qbtAppCrcCheck (name : List UInt8) :
    (qbtAppCrcCheck L fuel name ram).OnlyPost Op.IsRead fun r => r.1.fwInfo = ram.fwInfo := by
  rw [qbtAppCrcCheck]
  dsimp only
  split
  · exact rfl
  rename_i ram₁ h₁
  have hfw := fwInfo_qbtFwDecryptInit h₁
  split
  · exact hfw
  rename_i ram₂ h₂
  have hcall : ∀ (crc32 : UInt32) (pos : ℕ) (ram' : Ram P) (cmprsLen : ℕ), True →
      Steady ram.fwInfo ram' cmprsLen →
        (qbtAppCrcCal fuel crc32 (ram.fwInfo.rawSize - pos) ram' cmprsLen
          ram.fwInfo.cmprsType).OnlyPost Op.IsRead (ArmEnd.Good ram.fwInfo (fun _ => True) pos) :=
    fun _ _ _ _ _ hram => steady_decompressArm (crcSink_stays _) hram trivial
  refine (steady_pkgLoop (fun _ h => h) hcall (fun _ _ _ => trivial) _ (fun _ => trivial)
    (steady_qbtFwDecompressInit h₂ hfw)).bind fun r hr => ?_
  split <;> exact hr

theorem fwInfo_qbtFwCrcCheckLoop (part : Option FalPartition) (addr size pos : ℕ) (crc32 : UInt32) :
    (qbtFwCrcCheckLoop part addr size fuel ram pos crc32).OnlyPost Op.IsRead
      fun r => r.1.fwInfo = ram.fwInfo := by
  induction fuel generalizing ram pos crc32 with
  | zero => trivial
  | succ fuel ih =>
    rw [qbtFwCrcCheckLoop]
    split
    · refine (onlyPost_falPartitionRead (fun _ h => h) ..).bind fun r _ => ?_
      dsimp only
      split
      · exact rfl
      · exact ih ..
    · exact rfl

theorem fwInfo_qbtFwCrcCheck (name : List UInt8) (addr size crc : ℕ) :
    (qbtFwCrcCheck L fuel name addr size crc ram).OnlyPost Op.IsRead
      fun r => r.1.fwInfo = ram.fwInfo := by
  refine (fwInfo_qbtFwCrcCheckLoop ..).bind fun r hr => ?_
  dsimp only
  split <;> exact hr

/-- `qbt_fw_check` that ends leaves the header of the partition in the static one. -/
theorem wp_qbtFwCheck_info (hcalm : Calm env) {name : List UInt8}
    (hname : falPartitionFind L name = some src) (s : Board) :
    (qbtFwCheck L fuel name ram).wp (world L env)
      (fun r s' => r.1.fwInfo = src.info s.flash 0 ∧ s'.flash = s.flash)
      (fun _ s' => s'.flash = s.flash) s := by
  have hexist : qbtPartIsExist L name = true := by rw [qbtPartIsExist, hname]; rfl
  rw [qbtFwCheck, hexist]
  show (qbtFwInfoRead L name ram false >>= _).wp _ _ _ _
  rw [Prog.wp_bind]
  refine wp_qbtFwInfoRead hname (hcalm.readsQuiet _) (fun hcut => absurd hcalm hcut) false
    fun s₁ hs₁ => ?_
  have haddr : infoAddr src false = 0 := rfl
  rw [haddr, ← hs₁]
  refine wp_reads (T := fun r : Ram P × Bool => r.1.fwInfo = src.info s₁.flash 0) ?_ env s₁
  dsimp only
  split
  · exact rfl
  split
  · exact rfl
  refine (fwInfo_qbtFwCrcCheck ..).bind fun r hr => ?_
  split
  · exact hr
  split
  · exact (fwInfo_qbtAppCrcCheck name).imp fun r' hr' => hr'.trans hr
  · exact hr

/-! ## A release writes inside its target -/

/-- `qbt_fw_info_write` at the tail. -/
theorem inside_qbtFwInfoWrite {name : List UInt8} (hname : falPartitionFind L name = some dst) :
    (qbtFwInfoWrite L name info true).OnlyPost (Op.Inside dst) fun _ => True := by
  have hdst := mem_of_find hname
  have hlen := L.len_lt hdst
  have hfit := (L.sound dst hdst).header_fits
  have h96 : fwInfoSize = 96 := rfl
  have hbytes : info.bytes.length = fwInfoSize := Buffer.bytes_length _
  rw [qbtFwInfoWrite, hname]
  dsimp only
  rw [if_pos rfl]
  generalize info.bytes = bs at hbytes ⊢
  exact (onlyPost_falPartitionWrite (by omega)).bind fun _ _ => trivial

/-- The erases; they refuse an image that is larger than the partition. -/
theorem inside_eraseTarget (hdst : dst ∈ L.parts) {rawSize : ℕ} (hraw : rawSize < 4294967296) :
    (eraseTarget (some dst) rawSize).OnlyPost (Op.Inside dst)
      fun ok => ok = true → rawSize ≤ dst.len := by
  have hlen := L.len_lt hdst
  have hfit := (L.sound dst hdst).header_fits
  have h96 : fwInfoSize = 96 := rfl
  rw [eraseTarget]
  refine (onlyPost_falPartitionErase (by omega)).bind fun ret hret => ?_
  split
  · exact fun h => Bool.noConfusion h
  · simp only [Option.elim]
    generalize fwInfoSize = k at h96 hfit ⊢
    refine (onlyPost_falPartitionErase (by omega)).bind fun _ _ => ?_
    exact fun _ => by omega

theorem inside_releaseTo {dstName : List UInt8} (hdstName : falPartitionFind L dstName = some dst)
    (srcPart : Option FalPartition) (hram : Steady info ram 0) (hraw : info.rawSize ≤ dst.len) :
    (releaseTo L fuel dstName (some dst) srcPart info ram).OnlyPost (Op.Inside dst)
      fun r => r.1.fwInfo = info := by
  rw [releaseTo]
  refine (steady_pkgLoop (fun _ h => h.inside dst) (fun _ pos _ _ hat hram' =>
    steady_decompressArm (destSink_stays (mem_of_find hdstName)) hram' hat)
    (fun _ _ hlt => by omega) srcPart (fun _ => Nat.zero_le _) hram).bind fun r hr => ?_
  obtain ⟨ram', res⟩ := r
  cases res with
  | none => exact hr
  | some _ => exact (inside_qbtFwInfoWrite hdstName).bind fun _ _ => hr

theorem inside_qbtFwRelease {dstName srcName : PartName}
    (hdstName : falPartitionFind L (dstName.get ram) = some dst) :
    (qbtFwRelease L fuel dstName srcName ram).OnlyPost (Op.Inside dst)
      fun r => r.1.fwInfo = ram.fwInfo := by
  unfold qbtFwRelease
  dsimp only
  rw [hdstName]
  split
  · exact rfl
  rename_i ram₁ h₁
  have hfw := fwInfo_qbtFwDecryptInit h₁
  split
  · exact hfw
  rename_i ram₂ h₂
  have hram := steady_qbtFwDecompressInit h₂ hfw
  refine Prog.OnlyPost.bind (T := fun _ => True) ?_ fun _ _ => ?_
  · exact Prog.onlyPost_ask trivial fun _ => trivial
  have herase := inside_eraseTarget (mem_of_find hdstName) (le32_lt ram.fwInfo.bytes 84)
  apply herase.bind
  intro ok hok
  cases ok with
  | false => exact hram.fwInfo
  | true => exact inside_releaseTo hdstName _ hram (hok rfl)

theorem inside_qbtFwUpdate {dstName srcName : PartName}
    (hdstName : falPartitionFind L (dstName.get ram) = some dst) :
    (qbtFwUpdate L fuel dstName srcName ram).OnlyPost (Op.Inside dst) fun _ => True := by
  have hread : ∀ {α : Type} {p : Code α}, p.Only Op.IsRead → p.OnlyPost (Op.Inside dst) fun _ => True :=
    fun h => h.onlyPost.mono fun _ ho => ho.inside dst
  rw [qbtFwUpdate]
  split
  · trivial
  refine (inside_qbtFwRelease hdstName).bind fun r _ => ?_
  obtain ⟨ram₁, ok⟩ := r
  cases ok with
  | false => trivial
  | true =>
    refine (hread (only_qbtDestPartVerify _)).bind fun r' _ => ?_
    obtain ⟨ram₂, ok⟩ := r'
    cases ok with
    | false => trivial
    | true =>
      refine Prog.OnlyPost.bind (T := fun _ => True) ?_ fun _ _ => trivial
      exact Prog.onlyPost_ask trivial fun _ => trivial

end RtThreadOta
