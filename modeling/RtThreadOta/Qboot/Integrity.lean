import RtThreadOta.Crc.Crc32Bits
import RtThreadOta.RoundTrip.Packed

/-!
# Which packages pass the check sums

The two check sums of a package are the CRC-32 that the tool computes, whole or in chunks. Together
with the stored `hdr_crc` the header is a message whose register always ends the same, so four bytes
that change anywhere in it are noticed; the body is checked against a word of the header.
-/

namespace RtThreadOta

open Interaction Nor Words

variable {L : Layout} {P : Codecs} {env : Env} {part : FalPartition} {name : List UInt8}
  {m m' : Flash} {a lo n : ℕ}

/-- `qbt_fw_crc_check` of a range of the partition, without faults: it ends, and it compares the
tool's CRC of the range. -/
theorem qbtFwCrcCheck_run (hcalm : Calm env) (hname : falPartitionFind L name = some part)
    {addr size fuel : ℕ} (hsize : size < 2147483648) (hin : addr + size ≤ part.len)
    (hfuel : size + 4095 < fuel * qbootBufSize) (crc : ℕ) (ram : Ram P) (s : Board) :
    ∃ ram' s', (qbtFwCrcCheck L fuel name addr size crc ram).run (world L env) s =
      .done (ram', decide ((crc32Cal (part.bytes s.flash addr size)).toNat = crc)) s' := by
  have hlen := L.len_lt (mem_of_find hname)
  have hwp : (qbtFwCrcCheck L fuel name addr size crc ram).wp (world L env)
      (fun r _ => r.2 = decide ((crc32Cal (part.bytes s.flash addr size)).toNat = crc))
      (fun _ _ => False) s := by
    refine wp_qbtFwCrcCheck hname (hcalm.readsQuiet _) (fun h => absurd hcalm h) hsize (by omega)
      (by omega) (fun _ ram' s' _ _ => rfl) (fun hout => by omega) fun hdiv => by omega
  obtain ⟨⟨ram', ok⟩, s', hrun, rfl⟩ := Prog.run_done_of_wp hwp
  exact ⟨ram', s', hrun⟩

/-- The chunks of `qbt_fw_crc_check` end with the register over the whole range. -/
theorem qbtFwCrcCheckLoop_run (hcalm : Calm env) (hp : part ∈ L.parts) {addr size fuel : ℕ}
    (hsize : size < 2147483648) (hin : addr + size ≤ part.len)
    (hfuel : size + 4095 < fuel * qbootBufSize) (ram : Ram P) (s : Board) :
    ∃ ram' s', (qbtFwCrcCheckLoop (some part) addr size fuel ram 0 crc32InitVal).run
        (world L env) s =
      .done (ram', some (crc32CycCal crc32InitVal (part.bytes s.flash addr size))) s' := by
  have hlen := L.len_lt hp
  have hwp : (qbtFwCrcCheckLoop (some part) addr size fuel ram 0 crc32InitVal).wp (world L env)
      (fun r _ => r.2 = some (crc32CycCal crc32InitVal (part.bytes s.flash addr size)))
      (fun _ _ => False) s := by
    show (qbtFwCrcCheckLoop (some part) addr size fuel ram 0
      (crc32CycCal crc32InitVal (part.bytes s.flash addr 0))).wp _ _ _ _
    refine wp_qbtFwCrcCheckLoop hp (hcalm.readsQuiet _) (fun h => absurd hcalm h) hsize (by omega)
      (Nat.zero_le _) (by omega) rfl rfl (fun _ ram' s' _ _ => rfl) (fun hout => by omega)
      fun hdiv => by omega
  obtain ⟨⟨ram', res⟩, s', hrun, rfl⟩ := Prog.run_done_of_wp hwp
  exact ⟨ram', s', hrun⟩

/-- The tool, the bootloader on a whole, its check in chunks and the division bit by bit compute one
function, and `qbt_fw_crc_check` accepts exactly the tool's CRC. -/
theorem crc32_oneFunction (bs : List UInt8) :
    getFileCRC32 bs = crc32Cal bs ∧ crc32Bitwise bs = crc32Cal bs ∧
      ∀ (L : Layout) (P : Codecs) (env : Env) (name : List UInt8) (part : FalPartition)
        (addr fuel : ℕ) (ram : Ram P) (s : Board), Calm env →
        falPartitionFind L name = some part → bs.length < 2147483648 →
        addr + bs.length ≤ part.len → part.bytes s.flash addr bs.length = bs →
        bs.length + 4095 < fuel * qbootBufSize →
        (∃ ram' reg s', (qbtFwCrcCheckLoop (some part) addr bs.length fuel ram 0 crc32InitVal).run
            (world L env) s = .done (ram', some reg) s' ∧ reg ^^^ crc32InitVal = getFileCRC32 bs) ∧
        ∀ crc, ∃ ram' s', (qbtFwCrcCheck L fuel name addr bs.length crc ram).run (world L env) s =
          .done (ram', decide (crc = (getFileCRC32 bs).toNat)) s' := by
  refine ⟨getFileCRC32_eq bs, crc32Bitwise_eq bs, ?_⟩
  intro L P env name part addr fuel ram s hcalm hname hsize hin hbs hfuel
  rw [getFileCRC32_eq]
  constructor
  · obtain ⟨ram', s', hrun⟩ :=
      qbtFwCrcCheckLoop_run hcalm (mem_of_find hname) hsize hin hfuel ram s
    rw [hbs] at hrun
    exact ⟨ram', _, s', hrun, rfl⟩
  · intro crc
    obtain ⟨ram', s', hrun⟩ := qbtFwCrcCheck_run hcalm hname hsize hin hfuel crc ram s
    rw [hbs] at hrun
    refine ⟨ram', s', ?_⟩
    rw [hrun, decide_eq_decide.2 eq_comm]

/-- Eight bytes in the download partition. -/
theorem crc32_oneFunction_vectorWords : ∀ crc, ∃ ram' s',
    (qbtFwCrcCheck falPartTable 2 qbootDownloadPartName 0 vectorWords.length crc
      (Ram.boot Codecs.stored)).run (world falPartTable calmEnv)
        (Board.powerUp (downloadPart.holding vectorWords)) =
      .done (ram', decide (crc = (getFileCRC32 vectorWords).toNat)) s' :=
  ((crc32_oneFunction vectorWords).2.2 falPartTable Codecs.stored calmEnv qbootDownloadPartName
    downloadPart 0 2 (Ram.boot _) (Board.powerUp (downloadPart.holding vectorWords)) calmEnv_calm
    (by decide) (by decide) (by decide) (downloadPart.bytes_holding vectorWords) (by decide)).2

/-! ## Damage within four bytes -/

/-- Two contents of a partition that differ only within four bytes, cut where they may differ. -/
theorem bytes_window (h : ∀ i, lo ≤ i → i < lo + n → ¬ (a ≤ i ∧ i < a + 4) →
      part.byte m' i = part.byte m i) :
    ∃ pre w w' post, part.bytes m lo n = pre ++ w ++ post ∧
      part.bytes m' lo n = pre ++ w' ++ post ∧ w.length = w'.length ∧ w.length ≤ 4 := by
  -- the window as far as it lies in the range
  obtain ⟨i, hi⟩ : ∃ i, i = min (max a lo) (lo + n) - lo := ⟨_, rfl⟩
  obtain ⟨j, hj⟩ : ∃ j, j = min (max (a + 4) lo) (lo + n) - lo - i := ⟨_, rfl⟩
  obtain ⟨k, hk⟩ : ∃ k, k = n - i - j := ⟨_, rfl⟩
  have hn : n = i + j + k := by omega
  have hcut : ∀ m : Flash, part.bytes m lo n =
      part.bytes m lo i ++ part.bytes m (lo + i) j ++ part.bytes m (lo + (i + j)) k := by
    intro m
    rw [hn, FalPartition.bytes, Nor.read_add, Nor.read_add]
    simp only [FalPartition.bytes, Nat.add_assoc]
  have hsame : ∀ b l, lo ≤ b → b + l ≤ lo + n → (b + l ≤ a ∨ a + 4 ≤ b ∨ l = 0) →
      part.bytes m' b l = part.bytes m b l := by
    intro b l hb hl hor
    refine Nor.read_congr fun x hx => ?_
    rw [Nat.add_assoc]
    exact h (b + x) (by omega) (by omega) (by omega)
  refine ⟨part.bytes m lo i, part.bytes m (lo + i) j, part.bytes m' (lo + i) j,
    part.bytes m (lo + (i + j)) k, hcut m, ?_, ?_, ?_⟩
  · rw [hcut m', hsame lo i (by omega) (by omega) (by omega),
      hsame (lo + (i + j)) k (by omega) (by omega) (by omega)]
  · rw [FalPartition.bytes_length, FalPartition.bytes_length]
  · rw [FalPartition.bytes_length]
    omega

/-- Contents with the same register that differ only within four bytes do not differ. -/
theorem bytes_eq_of_register {c : UInt32} (h : ∀ i, lo ≤ i → i < lo + n → ¬ (a ≤ i ∧ i < a + 4) →
      part.byte m' i = part.byte m i)
    (hreg : crc32CycCal c (part.bytes m' lo n) = crc32CycCal c (part.bytes m lo n)) :
    part.bytes m' lo n = part.bytes m lo n := by
  obtain ⟨pre, w, w', post, hm, hm', hlen, hfour⟩ := bytes_window h
  rw [hm, hm'] at hreg
  rw [hm, hm', crc32CycCal_burst hlen.symm (by omega) hreg]

/-- The register behind an accepted header. -/
theorem register_of_qbtFwInfoCheck {info : FwInfo} (h : qbtFwInfoCheck info = true) :
    crc32CycCal crc32InitVal info.bytes = crc32Residue := by
  rw [qbtFwInfoCheck, Bool.and_eq_true] at h
  have hcrc := of_decide_eq_true h.2
  have h96 : info.bytes.length = 96 := Buffer.bytes_length info
  have hfield : (info.bytes.drop 92).length = 4 := by
    rw [List.length_drop, h96]
  have hword : info.hdrCrc = le32 (info.bytes.drop 92) 0 := by
    have := le32_append_right (info.bytes.take 92) (info.bytes.drop 92) 0
    rw [List.take_append_drop, List.length_take, h96] at this
    exact this
  rw [hword] at hcrc
  have := crc32CycCal_residue hfield hcrc
  rwa [List.take_append_drop] at this

/-- A header at the start of the partition that is not accepted ends `qbt_fw_check`. -/
theorem wp_qbtFwCheck_badHeader (hcalm : Calm env) (hname : falPartitionFind L name = some part)
    {fuel : ℕ} {ram : Ram P} {s : Board} (hbad : qbtFwInfoCheck (part.info s.flash 0) = false)
    {E : Option Halt → Board → Prop} :
    (qbtFwCheck L fuel name ram).wp (world L env) (fun r _ => r.2 = false) E s := by
  have hexist : qbtPartIsExist L name = true := by rw [qbtPartIsExist, hname]; rfl
  rw [qbtFwCheck, hexist]
  show (qbtFwInfoRead L name ram false >>= _).wp _ _ _ _
  rw [Prog.wp_bind]
  refine wp_qbtFwInfoRead hname (hcalm.readsQuiet _) (fun h => absurd hcalm h) false fun s' hs' => ?_
  dsimp only
  rw [infoAddr, if_neg Bool.false_ne_true, hbad]
  exact rfl

/-- A body that does not match ends `qbt_fw_check`. -/
theorem wp_qbtFwCheck_badBody (hcalm : Calm env) (hname : falPartitionFind L name = some part)
    {fuel : ℕ} {ram : Ram P} {s : Board} {info : FwInfo} (hinfo : part.info s.flash 0 = info)
    (hsize : info.pkgSize < 2147483648) (hfuel : info.pkgSize + 4095 < fuel * qbootBufSize)
    (hbad : (crc32Cal (part.body s.flash info)).toNat ≠ info.pkgCrc) :
    (qbtFwCheck L fuel name ram).wp (world L env) (fun r _ => r.2 = false) (fun _ _ => False) s := by
  have hp := mem_of_find hname
  have hfit := (L.sound part hp).header_fits
  have h96 : fwInfoSize = 96 := rfl
  have hexist : qbtPartIsExist L name = true := by rw [qbtPartIsExist, hname]; rfl
  by_cases hheader : qbtFwInfoCheck info = true
  swap
  · refine wp_qbtFwCheck_badHeader hcalm hname ?_
    rw [hinfo]
    exact Bool.eq_false_iff.2 hheader
  rw [qbtFwCheck, hexist]
  show (qbtFwInfoRead L name ram false >>= _).wp _ _ _ _
  rw [Prog.wp_bind]
  refine wp_qbtFwInfoRead hname (hcalm.readsQuiet _) (fun h => absurd hcalm h) false fun s' hs' => ?_
  dsimp only
  rw [infoAddr, if_neg Bool.false_ne_true, hinfo, hheader]
  show (qbtFwCrcCheck L fuel name fwInfoSize info.pkgSize info.pkgCrc _ >>= _).wp _ _ _ _
  rw [Prog.wp_bind]
  refine wp_qbtFwCrcCheck hname (hcalm.readsQuiet _) (fun h => absurd hcalm h) hsize (by omega) hfit
    (fun _ ram' s'' _ _ => ?_) (fun _ ram' s'' _ _ => rfl) fun hdiv => by omega
  rw [FalPartition.body, ← hs'] at hbad
  rw [decide_eq_false hbad]
  exact rfl

/-- Damage within four bytes of an accepted package is caught: `qbt_fw_check` rejects it. -/
theorem fourByteDamage_rejected (hcalm : Calm env) (hname : falPartitionFind L name = some part)
    (hheader : qbtFwInfoCheck (part.info m 0) = true)
    (hsize : (part.info m 0).pkgSize < 2147483648) {fuel₀ : ℕ} {ram₀ ram₁ : Ram P}
    {s₀ s₁ : Board} (hs₀ : s₀.flash = m)
    (hbody : (qbtFwCrcCheck L fuel₀ name fwInfoSize (part.info m 0).pkgSize
      (part.info m 0).pkgCrc ram₀).run (world L env) s₀ = .done (ram₁, true) s₁)
    (hsame : ∀ i < fwInfoSize + (part.info m 0).pkgSize, ¬ (a ≤ i ∧ i < a + 4) →
      part.byte m' i = part.byte m i)
    (hdiff : ∃ i < fwInfoSize + (part.info m 0).pkgSize, part.byte m' i ≠ part.byte m i)
    {fuel : ℕ} (hfuel : (part.info m 0).pkgSize + 4095 < fuel * qbootBufSize) (ram : Ram P)
    {s : Board} (hs : s.flash = m') :
    ∃ ram' s', (qbtFwCheck L fuel name ram).run (world L env) s = .done (ram', false) s' := by
  have hp := mem_of_find hname
  have hlen := L.len_lt hp
  have hfit := (L.sound part hp).header_fits
  have h96 : fwInfoSize = 96 := rfl
  subst hs hs₀
  generalize hinfo : part.info s₀.flash 0 = info at *
  -- what the body check says about the accepted content
  have hcrc : (crc32Cal (part.body s₀.flash info)).toNat = info.pkgCrc := by
    have hwp : (qbtFwCrcCheck L fuel₀ name fwInfoSize info.pkgSize info.pkgCrc ram₀).wp
        (world L env) (fun r _ => r.2 = true →
          (crc32Cal (part.body s₀.flash info)).toNat = info.pkgCrc) (fun _ _ => True) s₀ := by
      refine wp_qbtFwCrcCheck hname (hcalm.readsQuiet _) (fun h => absurd hcalm h) hsize (by omega)
        hfit (fun _ ram' s' _ _ => ?_) (fun _ ram' s' _ _ h => by cases h) fun _ _ => trivial
      intro h
      exact of_decide_eq_true h
    rw [Prog.wp_iff_run, hbody] at hwp
    exact hwp rfl
  have hend : ∀ {p : Code (Ram P × Bool)},
      p.wp (world L env) (fun r _ => r.2 = false) (fun _ _ => False) s →
        ∃ ram' s', p.run (world L env) s = .done (ram', false) s' := by
    intro p hwp
    obtain ⟨⟨ram', ok⟩, s', hrun, rfl⟩ := Prog.run_done_of_wp hwp
    exact ⟨ram', s', hrun⟩
  apply hend
  by_cases hheader' : qbtFwInfoCheck (part.info s.flash 0) = true
  swap
  · exact wp_qbtFwCheck_badHeader hcalm hname (Bool.eq_false_iff.2 hheader')
  -- both headers are accepted, so they are one
  have hbytes : part.bytes s.flash 0 fwInfoSize = part.bytes s₀.flash 0 fwInfoSize := by
    refine bytes_eq_of_register (c := crc32InitVal) (a := a) (fun i _ hi => hsame i (by omega)) ?_
    have h := register_of_qbtFwInfoCheck hheader
    rw [← hinfo, FalPartition.info_bytes] at h
    have h' := register_of_qbtFwInfoCheck hheader'
    rw [FalPartition.info_bytes] at h'
    rw [h, h']
  have hinfo' : part.info s.flash 0 = info := by
    rw [← hinfo, FalPartition.info, FalPartition.info, hbytes]
  -- so the body differs, and its register with it
  refine wp_qbtFwCheck_badBody hcalm hname hinfo' hsize hfuel fun hcrc' => ?_
  have hbody' : part.body s.flash info = part.body s₀.flash info := by
    refine bytes_eq_of_register (c := crc32InitVal) (a := a) (fun i _ hi => hsame i (by omega)) ?_
    rw [← hcrc, UInt32.toNat_inj] at hcrc'
    exact (UInt32.xor_left_inj _).1 hcrc'
  obtain ⟨i, hi, hne⟩ := hdiff
  apply hne
  rcases Nat.lt_or_ge i fwInfoSize with hlt | hge
  · have := Nor.read_eq_iff.1 hbytes i hlt
    rwa [Nat.add_zero] at this
  · have := Nor.read_eq_iff.1 hbody' (i - fwInfoSize) (by omega)
    have hadd : part.base + fwInfoSize + (i - fwInfoSize) = part.base + i := by omega
    rwa [hadd] at this

/-- The header of a package of the tool as it lies in the partition. -/
theorem Packed.info_eq {dst src : FalPartition} {dstName srcName : PartName} {K : PackCodecs}
    {c : Compression} {encrypt : Bool} {pi : PackInfo} {file : List UInt8} {ram : Ram P}
    (h : Packed L dst src dstName srcName K c encrypt pi file ram m) :
    src.info m 0 = (toolHdr K c encrypt pi file).info := by
  have hhdr : (toolHdr K c encrypt pi file).bytes.length = fwInfoSize := RblHdr.bytes_length _
  refine RblHdr.eq_info ?_
  have := congrArg (List.take fwInfoSize) h.stored
  rw [FalPartition.bytes, Nor.read_take _ _ _ (Nat.le_add_right _ _), List.take_left' hhdr] at this
  rw [FalPartition.info_bytes]
  exact this

/-- The body of a package of the tool has the CRC of its header. -/
theorem Packed.bodyCrc {dst src : FalPartition} {dstName srcName : PartName} {K : PackCodecs}
    {c : Compression} {encrypt : Bool} {pi : PackInfo} {file : List UInt8} {ram : Ram P}
    (h : Packed L dst src dstName srcName K c encrypt pi file ram m) :
    (crc32Cal (src.body m (toolHdr K c encrypt pi file).info)).toNat =
      (toolHdr K c encrypt pi file).info.pkgCrc := by
  rw [h.body, RblHdr.info_pkgCrc (UInt32.toNat_lt _)]
  rfl

/-- The body check of a package of the tool passes. -/
theorem Packed.bodyCheck_run (hcalm : Calm env) {dst src : FalPartition} {dstName : PartName}
    {srcName : List UInt8} {K : PackCodecs} {c : Compression} {encrypt : Bool} {pi : PackInfo}
    {file : List UInt8} {ram : Ram P} {s : Board} {fuel : ℕ}
    (h : Packed L dst src dstName (.lit srcName) K c encrypt pi file ram s.flash)
    (hfuel : (toolBody K c encrypt file).length + 4095 < fuel * qbootBufSize) (ram₀ : Ram P) :
    ∃ ram₁ s₁, (qbtFwCrcCheck L fuel srcName fwInfoSize (src.info s.flash 0).pkgSize
      (src.info s.flash 0).pkgCrc ram₀).run (world L env) s = .done (ram₁, true) s₁ := by
  have hlen := L.len_lt h.src_mem
  have hfits := h.fits
  rw [h.info_eq, h.pkgSize]
  obtain ⟨ram₁, s₁, hrun⟩ := qbtFwCrcCheck_run hcalm h.src_find (by omega) hfits hfuel
    (toolHdr K c encrypt pi file).info.pkgCrc ram₀ s
  have hcrc := h.bodyCrc
  rw [FalPartition.body, h.pkgSize] at hcrc
  rw [decide_eq_true hcrc] at hrun
  exact ⟨ram₁, s₁, hrun⟩

/-- The flash with one bit of a byte of the partition flipped. -/
def bitFlipped (m : Flash) (p : FalPartition) (i : ℕ) : Flash := fun e j =>
  if e = p.dev ∧ j = p.base + i then m e j ^^^ 1 else m e j

theorem byte_bitFlipped (m : Flash) (p : FalPartition) (i j : ℕ) :
    p.byte (bitFlipped m p i) j = if j = i then p.byte m j ^^^ 1 else p.byte m j := by
  rw [FalPartition.byte, bitFlipped]
  simp only [true_and, Nat.add_left_cancel_iff]
  rfl

/-- A bit flipped in the body of a package of the tool. -/
theorem fourByteDamage_rejected_bitFlipped : ∃ ram' s',
    (qbtFwCheck falPartTable 2 qbootDownloadPartName (Ram.boot Codecs.stored)).run
      (world falPartTable calmEnv) (Board.powerUp (bitFlipped
        (downloaded .stored .none false ⟨[], [], [], 0, 0⟩ vectorWords) downloadPart 97)) =
      .done (ram', false) s' := by
  have hpacked : Packed falPartTable appPart downloadPart (.lit qbootAppPartName)
      (.lit qbootDownloadPartName) PackCodecs.stored .none false ⟨[], [], [], 0, 0⟩ vectorWords
      (headerRead Codecs.stored _) (downloaded .stored .none false ⟨[], [], [], 0, 0⟩ vectorWords) :=
    packed_downloaded (by decide) (by decide) (by decide)
  have hsize : (downloadPart.info
      (downloaded .stored .none false ⟨[], [], [], 0, 0⟩ vectorWords) 0).pkgSize = 8 := by
    rw [hpacked.info_eq, hpacked.pkgSize]
    rfl
  obtain ⟨ram₁, s₁, hbody⟩ := Packed.bodyCheck_run
    (s := Board.powerUp (downloaded .stored .none false ⟨[], [], [], 0, 0⟩ vectorWords))
    calmEnv_calm hpacked (by decide : _ < 2 * 4096) (Ram.boot Codecs.stored)
  refine fourByteDamage_rejected (a := 97) calmEnv_calm hpacked.src_find ?_ ?_ rfl hbody ?_ ?_ ?_ _ rfl
  · exact (congrArg qbtFwInfoCheck hpacked.info_eq).trans (RblHdr.infoCheck _)
  · exact Nat.lt_of_le_of_lt (Nat.le_of_eq hsize) (by decide)
  · intro i _ hi
    exact (byte_bitFlipped _ _ _ _).trans (if_neg (by omega))
  · refine ⟨97, ?_, ?_⟩
    · exact Nat.lt_of_lt_of_le (by decide) (Nat.add_le_add_left (Nat.le_of_eq hsize.symm) _)
    · intro h
      have hflip := (byte_bitFlipped _ downloadPart 97 97).symm.trans h
      rw [if_pos rfl] at hflip
      exact absurd ((UInt8.xor_right_inj _).1 (hflip.trans UInt8.xor_zero.symm)) (by decide)
  · exact Nat.lt_of_le_of_lt (Nat.add_le_add_right (Nat.le_of_eq hsize) _) (by decide)

end RtThreadOta
