import RtThreadOta.Qboot.DryRun
import RtThreadOta.Qboot.Idempotence
import RtThreadOta.Qboot.SelfRelease
import RtThreadOta.RoundTrip.Uncompressed

/-!
# Images that reach into the place of the header

`qbt_fw_release` leaves it to the two erases to refuse what does not fit. An image longer than the target
is refused before anything is erased, but one that fits and leaves no room for the header is erased and
written, and only then the header is programmed over it.
-/

namespace RtThreadOta

open Interaction Nor Words

variable {L : Layout} {P : Codecs} {env : Env} {dst src : FalPartition} {fuel : ℕ} {s : Board}
  {info : FwInfo} {D : List UInt8}

/-! ## Bodies that decode to the image -/

section Drive

variable {d : Decoder} {Good : d.State → Prop} {Dry : List UInt8 → d.State → Prop}
  {rawSize stop pos avail pieces : ℕ} {a b : d.State} {rest : List UInt8}

/-- A piece of a body that goes on, and what the rest of it decodes to. -/
theorem Decoder.decode_succ_more (h : (d.decode (pieces + 1) a rest).2 = .more b) :
    ∃ a', (d.feed a (rest.take qbootCmprsReadSize)).next = .more a' ∧
      (d.decode pieces a' (rest.drop qbootCmprsReadSize)).2 = .more b ∧
      (d.decode (pieces + 1) a rest).1 = (d.feed a (rest.take qbootCmprsReadSize)).bytes ++
        (d.decode pieces a' (rest.drop qbootCmprsReadSize)).1 := by
  rw [decode] at h ⊢
  cases hnext : (d.feed a (rest.take qbootCmprsReadSize)).next with
  | more a' =>
    simp only [hnext] at h
    exact ⟨a', rfl, h, rfl⟩
  | bad =>
    simp only [hnext] at h
    cases h
  | stop x =>
    simp only [hnext] at h
    cases h

/-- Only the last piece of a body is flushed behind. -/
theorem Decoder.Tame.tail_nil (ht : d.Tame Good Dry) (ha : Good a)
    (hpieces : rest.length / qbootCmprsReadSize + 1 = pieces + 2) :
    (d.feed a (rest.take qbootCmprsReadSize)).tail = [] := by
  by_contra hne
  have hshort := (ht.flush ha (List.length_take_le ..) hne).1
  rw [List.length_take] at hshort
  rw [qbootCmprsReadSize] at *
  omega

theorem pieces_drop (h : rest.length / qbootCmprsReadSize + 1 = pieces + 2) :
    (rest.drop qbootCmprsReadSize).length / qbootCmprsReadSize + 1 = pieces + 1 := by
  rw [List.length_drop, qbootCmprsReadSize] at *
  omega

/-- A body that decodes to what is missing ends evenly. -/
theorem Decoder.Tame.endsEvenly (ht : d.Tame Good Dry) (ha : Good a)
    (hpieces : rest.length / qbootCmprsReadSize + 1 = pieces)
    (hmore : (d.decode pieces a rest).2 = .more b)
    (hexact : pos + (d.decode pieces a rest).1.length = rawSize) :
    d.EndsEvenly rawSize stop fuel a pos rest := by
  induction pieces generalizing a pos rest fuel with
  | zero => exact absurd hpieces (Nat.succ_ne_zero _)
  | succ pieces ih =>
    cases fuel with
    | zero => trivial
    | succ fuel =>
      intro _
      obtain ⟨a', hnext, hmore', hbytes⟩ := Decoder.decode_succ_more hmore
      have hgood : Good a' := ht.good ha (List.length_take_le ..) hnext
      rw [hbytes, List.length_append] at hexact
      simp only [hnext]
      by_cases hmissing : pos + (d.feed a (rest.take qbootCmprsReadSize)).bytes.length < rawSize
      · rw [if_pos hmissing]
        cases pieces with
        | zero =>
          -- behind the last piece nothing is missing
          rw [Decoder.decode, List.length_nil] at hexact
          omega
        | succ pieces =>
          refine ⟨ht.tail_nil ha hpieces, ih hgood (pieces_drop hpieces) hmore' ?_⟩
          rw [Nat.add_assoc]
          exact hexact
      · rw [if_neg hmissing]
        exact Or.inl (by omega)

/-- Its drive ends with all of it written, and padding behind it. -/
theorem Decoder.Tame.drive_exact (ht : d.Tame Good Dry) (hraw : rawSize < 2147483648) (ha : Good a)
    (hpieces : rest.length / qbootCmprsReadSize + 1 = pieces) (havail : rest.length ≤ avail)
    (hmore : (d.decode pieces a rest).2 = .more b)
    (hexact : pos + (d.decode pieces a rest).1.length = rawSize) :
    (d.drive destPolicy rawSize (fuel + 1 + pieces) a pos avail rest).fin = .reached ∧
      ∃ n, (d.drive destPolicy rawSize (fuel + 1 + pieces) a pos avail rest).out =
        (d.decode pieces a rest).1 ++ List.replicate n 0xFF := by
  induction pieces generalizing a pos avail rest with
  | zero => exact absurd hpieces (Nat.succ_ne_zero _)
  | succ pieces ih =>
    rcases Nat.lt_or_ge pos rawSize with hlt | hge
    swap
    · have hnil : (d.decode (pieces + 1) a rest).1 = [] :=
        List.eq_nil_of_length_eq_zero (by omega)
      rw [← Nat.add_assoc, Decoder.drive_reached hge, hnil]
      exact ⟨rfl, 0, rfl⟩
    have hin : (rest.take qbootCmprsReadSize).length ≤ avail := by
      rw [List.length_take]
      omega
    obtain ⟨a', hnext, hmore', hbytes⟩ := Decoder.decode_succ_more hmore
    have hgood : Good a' := ht.good ha (List.length_take_le ..) hnext
    have htail := @ht.tail_lt a (rest.take qbootCmprsReadSize) ha
    rw [hbytes, List.length_append] at hexact
    rw [hbytes, ← Nat.add_assoc, Decoder.drive_piece hlt hin]
    simp only [hnext]
    cases pieces with
    | zero =>
      -- the flush of the last piece is padded
      rw [Decoder.decode, List.length_nil, Nat.add_zero] at hexact
      rw [Decoder.decode, List.append_nil]
      generalize d.feed a (rest.take qbootCmprsReadSize) = r at hexact htail ⊢
      have hcount := (destPolicy_fair.count (rawSize - pos) htail).1
      have hmost := (destPolicy_fair.count (rawSize - pos) htail).2.1
      have hlen : r.bytes.length = r.chunks.flatten.length + r.tail.length := List.length_append
      rw [gzipRemainBufSize] at hmost
      rw [u32_of_lt (by omega), Nat.add_zero, Decoder.drive_reached (by omega), Trace.after_out,
        List.append_nil, destPolicy_taken]
      refine ⟨rfl, ?_⟩
      split
      · exact ⟨0, rfl⟩
      · exact ⟨_, rfl⟩
    | succ pieces =>
      have hnil := ht.tail_nil ha hpieces
      have hdrop : (rest.drop qbootCmprsReadSize).length ≤
          avail - (rest.take qbootCmprsReadSize).length := by
        rw [List.length_drop, List.length_take]
        omega
      rw [destPolicy_taken_of_nil hnil, u32_of_lt (by omega)]
      obtain ⟨hfin, n, hout⟩ := ih hgood (pieces_drop hpieces) hdrop hmore'
        (by rw [Nat.add_assoc]; exact hexact)
      refine ⟨hfin, n, ?_⟩
      rw [Trace.after_out, destPolicy_taken_of_nil hnil, hout, List.append_assoc]

end Drive

/-- An uncompressed body that is long enough ends evenly, since its pieces are single blocks. -/
theorem noneDecoder_endsEvenly {rawSize stop pos : ℕ} {a : noneDecoder.State} {rest : List UInt8}
    (hraw : rawSize ≤ stop) (hstop : qbootCmprsReadSize ∣ stop) (hpos : qbootCmprsReadSize ∣ pos)
    (henough : rawSize ≤ pos + rest.length) :
    noneDecoder.EndsEvenly rawSize stop fuel a pos rest := by
  induction fuel generalizing a pos rest with
  | zero => trivial
  | succ fuel ih =>
    intro hmissing
    have hbytes : (noneDecoder.feed a (rest.take qbootCmprsReadSize)).bytes.length =
        min qbootCmprsReadSize rest.length := by
      rw [Reply.bytes]
      show (rest.take qbootCmprsReadSize ++ [] ++ []).length = _
      rw [List.append_nil, List.append_nil, List.length_take]
    show if pos + (noneDecoder.feed a (rest.take qbootCmprsReadSize)).bytes.length < rawSize then _
      else _
    rw [hbytes]
    rw [qbootCmprsReadSize] at *
    split
    · refine ⟨rfl, ih ?_ ?_⟩
      · omega
      · rw [List.length_drop]
        omega
    · refine Or.inr ⟨rfl, ?_⟩
      omega

/-! ## Well-formed packages -/

/-- The body decodes to the image `D` of `raw_size` bytes, at least one. Behind an uncompressed image the
padding of AES may follow. -/
structure DecodesTo (P : Codecs) (fuel : ℕ) (info : FwInfo) (plain D : List UInt8) : Prop where
  raw_pos : 0 < info.rawSize
  crypt : CryptSupported info
  aes : info.cryptType = qbootAlgoCryptAes → 16 ∣ info.pkgSize
  decodes : ∃ d b, decoderOf P fuel info.cmprsType = some d ∧ d.decodeAll plain = (D, .more b)
  exact : D.length = info.rawSize ∨ info.cmprsType = qbootAlgoCmprsNone ∧ info.rawSize ≤ D.length

/-- What a release writes of the image, padding aside: of an uncompressed one the pieces up to `raw_size`. -/
def written (info : FwInfo) (D : List UInt8) : List UInt8 :=
  if info.cmprsType = qbootAlgoCmprsNone then D.take (roundUp info.rawSize qbootCmprsReadSize) else D

theorem DecodesTo.rawSize_le {plain : List UInt8} (h : DecodesTo P fuel info plain D) :
    info.rawSize ≤ D.length := by
  rcases h.exact with heq | ⟨-, hle⟩
  · exact Nat.le_of_eq heq.symm
  · exact hle

theorem take_written (info : FwInfo) (D : List UInt8) :
    (written info D).take info.rawSize = D.take info.rawSize := by
  rw [written]
  split
  · have hle : info.rawSize ≤ roundUp info.rawSize qbootCmprsReadSize := le_roundUp _ (by decide)
    rw [List.take_take, Nat.min_eq_left hle]
  · rfl

/-- How both runs over such a package go. -/
structure Driven (L : Layout) (dst : FalPartition) (info : FwInfo) (D : List UInt8) (dry real : Trace) :
    Prop where
  reached : real.fin = .reached
  dry_reached : dry.fin = .reached
  image : dry.out = D.take info.rawSize
  out : ∃ n, real.out = written info D ++ List.replicate n 0xFF
  enough : info.rawSize ≤ real.out.length
  within : real.out.length ≤ eraseStop L dst info.rawSize

theorem DecodesTo.driven (hI : P.inflater.Streams) (hdst : dst ∈ L.parts)
    (hraw : info.rawSize ≤ dst.len) {plain : List UInt8} {avail : ℕ} (havail : plain.length ≤ avail)
    (havail' : avail < 2147483648)
    (h : DecodesTo P fuel info plain D) (hfuel : inflateFuel + plain.length + info.rawSize + 64 ≤ fuel)
    {d : Decoder} (hd : decoderOf P fuel info.cmprsType = some d) :
    Driven L dst info D (d.drive crcPolicy info.rawSize fuel d.init 0 avail plain)
      (d.drive destPolicy info.rawSize fuel d.init 0 avail plain) := by
  have hlen := L.len_lt hdst
  have hstop := eraseStop_le hdst hraw
  have h1024 : qbootCmprsReadSize = 1024 := rfl
  have hstop' : qbootCmprsReadSize ∣ eraseStop L dst info.rawSize :=
    Nat.dvd_trans ⟨4, rfl⟩ (dvd_eraseStop L dst _)
  obtain ⟨d', b, hd', hdecode⟩ := h.decodes
  obtain rfl := Option.some.inj (hd.symm.trans hd')
  -- it is enough to see how the body ends, and what the release writes
  have hall : ∀ T : Trace, T = d.drive destPolicy info.rawSize fuel d.init 0 avail plain →
      d.EndsEvenly info.rawSize (eraseStop L dst info.rawSize) fuel d.init 0 plain →
      T.fin = .reached → (∃ n, T.out = written info D ++ List.replicate n 0xFF) →
      Driven L dst info D (d.drive crcPolicy info.rawSize fuel d.init 0 avail plain) T := by
    rintro T rfl heven hfin ⟨n, hout⟩
    have hagrees : Agrees info.rawSize (eraseStop L dst info.rawSize) 0 _
        (d.drive destPolicy info.rawSize fuel d.init 0 avail plain) :=
      heven.agrees (decoderOf_lawful hd) (le_eraseStop L dst _)
        (Nat.dvd_trans ⟨128, rfl⟩ (dvd_eraseStop L dst _)) (by omega) (Nat.dvd_zero _) (Nat.zero_le _)
    have himage := hagrees.image hfin
    have henough := hagrees.enough hfin
    have hwithin := hagrees.within hfin
    rw [Nat.zero_add] at henough hwithin
    refine ⟨hfin, hagrees.fin.trans hfin, ?_, ⟨n, hout⟩, henough, hwithin⟩
    have hle := congrArg List.length (take_written info D)
    have hD := h.rawSize_le
    rw [List.length_take, List.length_take] at hle
    rw [himage, Nat.sub_zero, hout, List.take_append_of_le_length (by omega), take_written]
  by_cases hnone : info.cmprsType = qbootAlgoCmprsNone
  · obtain rfl : noneDecoder = d := by
      rw [hnone] at hd
      exact Option.some.inj hd
    obtain rfl : plain = D := by
      rw [noneDecoder_decodeAll] at hdecode
      exact congrArg Prod.fst hdecode
    have hD := h.rawSize_le
    obtain ⟨hfin, hout, -⟩ := @noneDecoder_drive fuel info.rawSize 0 avail noneDecoder.init plain
      (by omega) havail (by omega) (by rw [roundUp, h1024]; omega) _ rfl
    refine hall _ rfl (noneDecoder_endsEvenly (le_eraseStop L dst _) hstop' (Nat.dvd_zero _) (by omega))
      hfin ⟨0, ?_⟩
    rw [hout, written, if_pos hnone, Nat.sub_zero, List.replicate_zero, List.append_nil]
  · have hexact : D.length = info.rawSize := h.exact.resolve_right fun hor => hnone hor.1
    obtain ⟨Good, Dry, ht, -⟩ := decoderOf_tame hI (by omega) hd
    obtain ⟨k, hk⟩ : ∃ k, fuel = k + 1 + (plain.length / qbootCmprsReadSize + 1) := by
      have hpieces : plain.length / qbootCmprsReadSize ≤ plain.length := Nat.div_le_self _ _
      exact ⟨fuel - 1 - (plain.length / qbootCmprsReadSize + 1), by omega⟩
    rw [Decoder.decodeAll] at hdecode
    have hmore := congrArg Prod.snd hdecode
    have hD := congrArg Prod.fst hdecode
    have hlenD : 0 + (d.decode (plain.length / qbootCmprsReadSize + 1) d.init plain).1.length =
        info.rawSize := by
      rw [hD, Nat.zero_add]
      exact hexact
    obtain ⟨hfin, n, hout⟩ := @Decoder.Tame.drive_exact k d Good Dry info.rawSize 0 avail _ _ b plain ht
      (by omega) ht.init rfl havail hmore hlenD
    rw [← hk] at hfin hout
    refine hall _ rfl (ht.endsEvenly ht.init rfl hmore hlenD) hfin ⟨n, ?_⟩
    rw [hout, hD, written, if_neg hnone]

/-! ## The place of the header -/

theorem FalPartition.bytes_eq_iff {p : FalPartition} {m : Flash} {a n : ℕ} {bs : List UInt8}
    (hn : bs.length = n) (x : UInt8) :
    p.bytes m a n = bs ↔ ∀ i < n, p.byte m (a + i) = bs.getD i x := by
  subst hn
  rw [FalPartition.bytes, Nor.read_eq_iff_getElem]
  refine forall_congr' fun i => forall_congr' fun hi => ?_
  rw [FalPartition.byte, Nat.add_assoc, List.getD_eq_getElem _ _ hi]

/-- The bytes `Y` do no harm in the place of the header: they leave its bits set, and where they belong to
the image they are the bytes of the header. -/
def HeaderClear (dst : FalPartition) (info : FwInfo) (Y : List UInt8) : Prop :=
  ∀ i < fwInfoSize, Below (info.bytes.getD i 0) (Y.getD (dst.tail + i) 0xFF) ∧
    (dst.tail + i < info.rawSize → Y.getD (dst.tail + i) 0xFF = info.bytes.getD i 0)

/-- Bytes in front of that place are harmless. -/
theorem headerClear_of_length {Y : List UInt8} (hY : Y.length ≤ dst.tail)
    (hraw : info.rawSize ≤ Y.length) : HeaderClear dst info Y := by
  intro i _
  have hbehind : Y.getD (dst.tail + i) 0xFF = 0xFF := List.getD_eq_default _ _ (by omega)
  rw [hbehind]
  exact ⟨below_ff _, fun h => by omega⟩

/-- A target after a release has the image and the header exactly when what was written is harmless. -/
theorem released_clear_iff (hdst : dst ∈ L.parts) (hraw : info.rawSize ≤ dst.len) {m₀ m : Flash}
    {X : List UInt8} (henough : info.rawSize ≤ X.length) (h : Released L dst info m₀ X m) :
    dst.bytes m 0 info.rawSize = X.take info.rawSize ∧
        dst.bytes m dst.tail fwInfoSize = info.bytes ↔ HeaderClear dst info X := by
  have htail := Layout.tail_add hdst
  have hbytes : info.bytes.length = fwInfoSize := Buffer.bytes_length _
  have htake : (X.take info.rawSize).length = info.rawSize := List.length_take_of_le henough
  have hfront := fun i hi herased => h.byte (i := i) hdst hi herased
  obtain ⟨m₁, hw, rfl, -⟩ := h
  -- the header is programmed over what was written
  have hover : ∀ i < fwInfoSize, dst.byte (dst.programmed m₁ dst.tail info.bytes) (dst.tail + i) =
      X.getD (dst.tail + i) 0xFF &&& info.bytes.getD i 0 := by
    intro i hi
    rw [FalPartition.byte_programmed (Nat.le_add_right _ _) (by omega), Nat.add_sub_cancel_left,
      hw.byte (dst.tail + i) (by omega)
        (Or.inr (Nat.le_trans (eraseStart_le L dst dst.tail) (Nat.le_add_right _ _)))]
  have himage : ∀ i < info.rawSize, (X.take info.rawSize).getD i 0xFF = X.getD i 0xFF := by
    intro i hi
    rw [List.getD_eq_getElem _ _ (by omega), List.getD_eq_getElem _ _ (by omega), List.getElem_take]
  rw [FalPartition.bytes_eq_iff htake 0xFF, FalPartition.bytes_eq_iff hbytes 0]
  constructor
  · rintro ⟨himg, hhdr⟩ i hi
    have heq := hhdr i hi
    rw [hover i hi] at heq
    refine ⟨?_, fun hlt => ?_⟩
    · rw [Below, UInt8.and_comm]
      exact heq
    · have hbyte := himg (dst.tail + i) hlt
      rw [Nat.zero_add, hover i hi, himage _ hlt] at hbyte
      exact hbyte.symm.trans heq
  · intro hclear
    constructor
    · intro i hi
      rw [Nat.zero_add, himage i hi]
      by_cases hlt : i < dst.tail
      · exact hfront i hlt (Or.inl (Nat.lt_of_lt_of_le hi (le_eraseStop L dst _)))
      · obtain ⟨j, rfl⟩ : ∃ j, i = dst.tail + j := ⟨i - dst.tail, by omega⟩
        have hj : j < fwInfoSize := by omega
        rw [hover j hj, (hclear j hj).2 hi, UInt8.and_self]
    · intro i hi
      rw [hover i hi, UInt8.and_comm]
      exact (hclear i hi).1

/-! ## The two outcomes -/

/-- An update either says yes and has stored the image and the header, or says no and has left every byte
of the target. -/
def AllOrNothing (L : Layout) (env : Env) (fuel : ℕ) (dst : FalPartition) (dstName srcName : PartName)
    (ram : Ram P) (D : List UInt8) (s : Board) : Prop :=
  ∃ ram' yes s',
    (qbtFwUpdate L fuel dstName srcName ram).run (world L env) s = .done (ram', yes) s' ∧
    (yes = true ∧ dst.bytes s'.flash 0 ram.fwInfo.rawSize = D.take ram.fwInfo.rawSize ∧
        dst.bytes s'.flash dst.tail fwInfoSize = ram.fwInfo.bytes ∨
      yes = false ∧ ∀ i < dst.len, dst.byte s'.flash i = dst.byte s.flash i)

section Update

variable {ram : Ram P} {dstName srcName : PartName} {d : Decoder} {T : Trace}

/-- Whatever an update says whose release drives to the end, the image has been written, and a yes comes
after the header. -/
theorem wp_qbtFwUpdate_written (hcalm : Calm env)
    (h : Releasable L dst src dstName srcName ram info) (hraw : 0 < info.rawSize)
    (hd : decoderOf P fuel info.cmprsType = some d)
    (hT : T = d.drive destPolicy info.rawSize fuel d.init 0 (src.len - fwInfoSize)
      (src.plain P s.flash info))
    (hreached : T.fin = .reached) (herased : T.out.length ≤ eraseStop L dst info.rawSize) :
    (qbtFwUpdate L fuel dstName srcName ram).wp (world L env)
      (fun r s' => dst.byte s'.flash 0 = T.out.getD 0 0xFF ∧
        (r.2 = true → Released L dst info s.flash T.out s'.flash)) (fun _ _ => True) s := by
  have hdst := mem_of_find h.dst_find
  have hlen := L.len_lt hdst
  have hstop := eraseStop_le hdst h.raw
  have hputs := decoderOf_puts hd (by have := h.raw; omega) (hT ▸ hreached)
  rw [← hT] at hputs
  have hexist : qbtPartIsExist L (dstName.get ram) = true := by
    rw [qbtPartIsExist, h.dst_find]
    rfl
  -- the first byte lies in front of the header
  have hfirst : 0 < dst.tail := by
    have hblk := blk_le_len hdst
    rw [FalPartition.tail, fwInfoSize]
    omega
  have hzero : Erased L dst info.rawSize 0 :=
    Or.inl (Nat.lt_of_lt_of_le hraw (le_eraseStop L dst _))
  rw [qbtFwUpdate, hexist]
  simp only [Bool.not_true, Bool.false_eq_true, if_false]
  rw [Prog.wp_bind]
  refine wp_qbtFwRelease h (hcalm.readsQuiet src) (fun _ _ => trivial) hd hT (fun _ _ t _ => ?_)
    (fun hfail => ?_) (fun hbad => ?_) (fun ram₁ s₁ hr => ?_) (fun _ ram₁ s₁ hr => ?_)
    (fun _ ram₁ s₁ _ hr => ?_) fun _ _ _ => trivial
  · rw [hcalm]
    exact Fault.none_quiet
  · rcases hfail with hzero | hcut
    · omega
    · exact absurd hcalm hcut
  · rw [hreached] at hbad
    cases hbad
  · exact absurd hr (not_refusedIn hcalm hputs (by omega) herased)
  · obtain ⟨m₁, hw, hsame, -⟩ := hr
    refine ⟨?_, fun hfalse => Bool.noConfusion hfalse⟩
    rw [hsame.byte_eq (by omega)]
    exact hw.byte 0 (Nat.lt_of_lt_of_le hfirst (Nat.sub_le ..)) hzero
  · simp only [Bool.not_true, Bool.false_eq_true, if_false]
    rw [Prog.wp_bind]
    refine Prog.wp_mono (wp_flash_eq (only_qbtDestPartVerify dstName) env s₁) (fun r s₂ hs₂ => ?_)
      fun _ _ _ => trivial
    have hr₂ : Released L dst info s.flash T.out s₂.flash := hs₂ ▸ hr
    obtain ⟨ram₂, ok⟩ := r
    cases ok with
    | false => exact ⟨hr₂.byte hdst hfirst hzero, fun _ => hr₂⟩
    | true =>
      simp only [Bool.not_true, Bool.false_eq_true, if_false]
      rw [Prog.wp_bind]
      refine wp_kprintf (fun _ _ => trivial) fun s₃ hs₃ _ => ?_
      have hr₃ : Released L dst info s.flash T.out s₃.flash := hs₃ ▸ hr₂
      exact ⟨hr₃.byte hdst hfirst hzero, fun _ => hr₃⟩

/-- The name of the target finds it as long as the header stays. -/
theorem Releasable.find_of_fwInfo (h : Releasable L dst src dstName srcName ram info) {ram' : Ram P}
    (hfw : ram'.fwInfo = info) : falPartitionFind L (dstName.get ram') = some dst := by
  have hfind := h.dst_find
  cases dstName with
  | lit name => exact hfind
  | ofFwInfo =>
    rw [PartName.get, hfw, ← h.fwInfo]
    exact hfind

/-- Where what is written is harmless to the header, the update succeeds. -/
theorem wp_qbtFwUpdate_clear (hcalm : Calm env)
    (h : Releasable L dst src dstName srcName ram info) (hraw : 0 < info.rawSize)
    (hd : decoderOf P fuel info.cmprsType = some d)
    (hT : T = d.drive destPolicy info.rawSize fuel d.init 0 (src.len - fwInfoSize)
      (src.plain P s.flash info))
    (hreached : T.fin = .reached) (henough : info.rawSize ≤ T.out.length)
    (herased : T.out.length ≤ eraseStop L dst info.rawSize) (hclear : HeaderClear dst info T.out)
    (hcheck : qbtFwInfoCheck info = true)
    (hcrc : info.verifyType = qbootAlgo2VerifyCrc →
      (crc32Cal (T.out.take info.rawSize)).toNat = info.rawCrc)
    (hfuel : info.rawSize + 4095 < fuel * qbootBufSize) :
    (qbtFwUpdate L fuel dstName srcName ram).wp (world L env)
      (fun r s' => r.2 = true ∧ Released L dst info s.flash T.out s'.flash) (fun _ _ => False) s := by
  have hdst := mem_of_find h.dst_find
  have hlen := L.len_lt hdst
  have htail := Layout.tail_add hdst
  have hrawLen := h.raw
  have hstop := eraseStop_le hdst hrawLen
  have hcut : ¬ Calm env → ∀ s' : Board, False := fun hc => absurd hcalm hc
  have hputs := decoderOf_puts hd (by omega) (hT ▸ hreached)
  rw [← hT] at hputs
  have hexist : qbtPartIsExist L (dstName.get ram) = true := by
    rw [qbtPartIsExist, h.dst_find]
    rfl
  rw [qbtFwUpdate, hexist]
  simp only [Bool.not_true, Bool.false_eq_true, if_false]
  rw [Prog.wp_bind]
  refine wp_qbtFwRelease h (hcalm.readsQuiet src) hcut hd hT (fun _ _ t _ => ?_)
    (fun hfail => ?_) (fun hbad => ?_) (fun ram₁ s₁ hr => ?_) (fun _ ram₁ s₁ hr => ?_)
    (fun _ ram₁ s₁ hfw₁ hr => ?_) fun x hstop => ?_
  · rw [hcalm]
    exact Fault.none_quiet
  · rcases hfail with hzero | hcut
    · omega
    · exact absurd hcalm hcut
  · rw [hreached] at hbad
    cases hbad
  · exact absurd hr (not_refusedIn hcalm hputs (by omega) herased)
  · obtain ⟨m₁, hw, -, hbelow⟩ := hr
    refine absurd (fun i hi => ?_) (hbelow hcalm).2
    have hi' : i < fwInfoSize := by rwa [Buffer.bytes_length] at hi
    have hbits := (hclear i hi').1
    rw [List.getD_eq_getElem _ _ hi] at hbits
    rw [hw.byte (dst.tail + i) (by omega)
      (Or.inr (Nat.le_trans (eraseStart_le L dst dst.tail) (Nat.le_add_right _ _)))]
    exact hbits
  · obtain ⟨himage, hheader⟩ := (released_clear_iff hdst hrawLen henough hr).2 hclear
    have hinfo : dst.info s₁.flash dst.tail = info :=
      Buffer.ext_bytes ((FalPartition.info_bytes ..).trans hheader)
    simp only [Bool.not_true, Bool.false_eq_true, if_false]
    rw [Prog.wp_bind]
    refine wp_qbtDestPartVerify (h.find_of_fwInfo hfw₁) (hcalm.readsQuiet dst) hcut hinfo
      (h.find_of_fwInfo rfl) (by omega) hfuel (fun hbad => ?_) fun _ ram₂ s₂ _ hs₂ => ?_
    · refine absurd ⟨hcheck, fun hverify => ⟨hrawLen, ?_⟩⟩ hbad
      rw [himage]
      exact hcrc hverify
    · simp only [Bool.not_true, Bool.false_eq_true, if_false]
      rw [Prog.wp_bind]
      refine wp_kprintf hcut fun s₃ hs₃ _ => ?_
      refine ⟨rfl, ?_⟩
      rwa [hs₃, hs₂]
  · rw [hreached] at hstop
    cases hstop

end Update

/-- The CRC that the check has found is that of the image. -/
theorem crc_of_check (hI : P.inflater.Streams) (hcalm : Calm env) {name : List UInt8} {ram₀ ram : Ram P}
    (hname : falPartitionFind L name = some src) {s₀ : Board}
    (hrun : (qbtFwCheck L fuel name ram₀).run (world L env) s₀ = .done (ram, true) s)
    (hinfo : src.info s₀.flash 0 = info) (hform : DecodesTo P fuel info (src.plain P s₀.flash info) D)
    (hfuel : inflateFuel ≤ fuel) (hraw : info.rawSize < 2147483648)
    (himage : ∀ d, decoderOf P fuel info.cmprsType = some d →
      (d.drive crcPolicy info.rawSize fuel d.init 0 (src.len - fwInfoSize)
        (src.plain P s₀.flash info)).fin = .reached ∧
      (d.drive crcPolicy info.rawSize fuel d.init 0 (src.len - fwInfoSize)
        (src.plain P s₀.flash info)).out = D.take info.rawSize)
    (hverify : info.verifyType = qbootAlgo2VerifyCrc) :
    (crc32Cal (D.take info.rawSize)).toNat = info.rawCrc := by
  have hsrc := mem_of_find hname
  have hlen := L.len_lt hsrc
  have hfit := (L.sound src hsrc).header_fits
  have hacc : Accepts L env fuel name ram₀ s₀ := ⟨ram, s, hrun⟩
  have hheader := (hacc.wellStored hcalm hname).header
  have hfits := (hacc.wellStored hcalm hname).fits
  rw [hinfo] at hheader hfits
  obtain ⟨d, b, hd, -⟩ := hform.decodes
  obtain ⟨hreached, hout⟩ := himage d hd
  have hexist : qbtPartIsExist L name = true := by rw [qbtPartIsExist, hname]; rfl
  have hwp : (qbtFwCheck L fuel name ram₀).wp (world L env)
      (fun r _ => r.2 = true → (crc32Cal (D.take info.rawSize)).toNat = info.rawCrc)
      (fun _ _ => True) s₀ := by
    rw [qbtFwCheck, hexist]
    show (qbtFwInfoRead L name ram₀ false >>= _).wp _ _ _ _
    rw [Prog.wp_bind]
    refine wp_qbtFwInfoRead hname (hcalm.readsQuiet _) (fun _ _ => trivial) false fun s₁ hs₁ => ?_
    have haddr : infoAddr src false = 0 := rfl
    rw [haddr, hinfo]
    dsimp only
    rw [hheader]
    simp only [Bool.not_true, Bool.false_eq_true, if_false]
    rw [Prog.wp_bind]
    refine wp_qbtFwCrcCheck hname (hcalm.readsQuiet _) (fun _ _ => trivial) (by omega)
      (by rw [fwInfoSize]; omega) hfit (fun _ ram₂ s₂ hfw₂ hs₂ => ?_) (fun hout => by omega)
      fun _ _ => trivial
    have hfw₂ : ram₂.fwInfo = info := hfw₂
    have hflash : s₂.flash = s₀.flash := hs₂.trans hs₁
    rw [← hflash] at hreached hout
    split
    · exact fun hfalse => Bool.noConfusion hfalse
    rw [hfw₂, if_pos hverify]
    refine Prog.wp_imp (wp_qbtAppCrcCheck_decided hI hcalm hname hfw₂ hform.crypt hform.aes (by omega)
      hraw hfuel hd rfl) fun r _ hsays hyes => ?_
    rcases hsays with ⟨-, hno⟩ | ⟨-, hsum⟩
    · rw [hno] at hyes
      cases hyes
    · rw [hsum, hout] at hyes
      exact of_decide_eq_true hyes
  exact of_run (P := P) (p := qbtFwCheck L fuel name ram₀) (r := (ram, true)) hwp hrun rfl

/-! ## When an update is all or nothing -/

/-- Padding is harmless. -/
theorem headerClear_padded (Y : List UInt8) (n : ℕ) :
    HeaderClear dst info (Y ++ List.replicate n 0xFF) ↔ HeaderClear dst info Y := by
  have hget : ∀ i, (Y ++ List.replicate n 0xFF).getD i 0xFF = Y.getD i 0xFF := by
    intro i
    rcases Nat.lt_or_ge i Y.length with hlt | hge
    · rw [List.getD_append _ _ _ _ hlt]
    · rw [List.getD_append_right _ _ _ _ hge, List.getD_eq_default _ _ hge]
      rcases Nat.lt_or_ge (i - Y.length) n with hin | hout
      · rw [List.getD_eq_getElem _ _ (by rwa [List.length_replicate]), List.getElem_replicate]
      · rw [List.getD_eq_default _ _ (by rwa [List.length_replicate])]
  simp only [HeaderClear, hget]

/-- The body of a package does not change with the target. -/
theorem FalPartition.SameElsewhere.plain_eq {m m' : Flash} (h : dst.SameElsewhere m m')
    (hdst : dst ∈ L.parts) (hsrc : src ∈ L.parts) (hne : dst ≠ src)
    (hfits : fwInfoSize + info.pkgSize ≤ src.len) : src.plain P m' info = src.plain P m info := by
  rw [FalPartition.plain, FalPartition.plain, FalPartition.body, FalPartition.body,
    h.bytes_eq hdst hsrc hne hfits]

/-- A board whose target begins with another byte than `x`. -/
def Board.startingUnlike (s : Board) (dst : FalPartition) (x : UInt8) : Board :=
  { s with flash := fun e i => if e = dst.dev ∧ i = dst.base then ~~~x else s.flash e i }

theorem Board.startingUnlike_elsewhere (hdst : dst ∈ L.parts) (x : UInt8) :
    dst.SameElsewhere s.flash (s.startingUnlike dst x).flash := by
  have hlen := blk_le_len hdst
  intro e i hout
  refine if_neg ?_
  rintro ⟨rfl, rfl⟩
  exact hout ⟨rfl, Nat.le_refl _, by omega⟩

theorem Board.byte_startingUnlike (s : Board) (dst : FalPartition) (x : UInt8) :
    dst.byte (s.startingUnlike dst x).flash 0 = ~~~x := if_pos ⟨rfl, rfl⟩

theorem complement_ne (x : UInt8) : ~~~x ≠ x := by
  intro h
  have hbits := congrArg (fun y : UInt8 => y.toBitVec.getLsbD 0) h
  simp at hbits

/-- On fault-free flash, a package that was checked and whose body decodes to its image is released to
another partition or refused with that left as it was, whatever it holds: exactly when the image is longer
than the target or what is written leaves the header's place free or does no harm in it. -/
theorem update_allOrNothing_iff (hI : P.inflater.Streams) (hcalm : Calm env) {name : List UInt8}
    (hname : falPartitionFind L name = some src) {ram₀ ram : Ram P} {s₀ : Board}
    (hchecked : (qbtFwCheck L fuel name ram₀).run (world L env) s₀ = .done (ram, true) s)
    {dstName srcName : PartName} (hdst : falPartitionFind L (dstName.get ram) = some dst)
    (hsrc : falPartitionFind L (srcName.get ram) = some src) (hne : dst ≠ src)
    (hform : DecodesTo P fuel ram.fwInfo (src.plain P s.flash ram.fwInfo) D)
    (hfuel : endFuel ram.fwInfo ≤ fuel) :
    (∀ t : Board, dst.SameElsewhere s.flash t.flash →
        AllOrNothing L env fuel dst dstName srcName ram D t) ↔
      dst.len < ram.fwInfo.rawSize ∨ HeaderClear dst ram.fwInfo (written ram.fwInfo D) := by
  have hmem := mem_of_find hdst
  have hmem' := mem_of_find hname
  have hlen := L.len_lt hmem
  have hlen' := L.len_lt hmem'
  have hstored := Accepts.wellStored hcalm hname ⟨ram, s, hchecked⟩
  obtain ⟨hfw, hflash⟩ : ram.fwInfo = src.info s₀.flash 0 ∧ s.flash = s₀.flash := by
    have hwp : (qbtFwCheck L fuel name ram₀).wp (world L env)
        (fun r s' => r.1.fwInfo = src.info s₀.flash 0 ∧ s'.flash = s₀.flash)
        (fun _ s' => s'.flash = s₀.flash) s₀ := wp_qbtFwCheck_info hcalm hname s₀
    rw [Prog.wp_iff_run, hchecked] at hwp
    exact hwp
  have hheader := hstored.header
  have hfits := hstored.fits
  rw [← hfw] at hheader hfits
  rcases Nat.lt_or_ge dst.len ram.fwInfo.rawSize with hlong | hraw
  · refine iff_of_true (fun t _ => ?_) (Or.inl hlong)
    have hrefused : (qbtFwUpdate L fuel dstName srcName ram).wp (world L env)
        (fun r s' => r.2 = false ∧ s'.flash = t.flash) (fun _ _ => False) t :=
      wp_qbtFwUpdate_refused hcalm hdst (Or.inr (Or.inr hlong))
    obtain ⟨⟨ram', yes⟩, s', hrun, hno, hsame⟩ := Prog.run_done_of_wp hrefused
    refine ⟨ram', yes, s', hrun, Or.inr ⟨hno, fun i _ => ?_⟩⟩
    rw [hsame]
  obtain ⟨d, b, hd, -⟩ := hform.decodes
  obtain ⟨ram₁, hinit, -⟩ := qbtFwDecryptInit_of_supported hform.crypt ram
  have hplain : (src.plain P s.flash ram.fwInfo).length = ram.fwInfo.pkgSize :=
    plain_length hform.aes hinit
  have hr : Releasable L dst src dstName srcName ram ram.fwInfo :=
    ⟨hdst, hsrc, hne, rfl, hform.crypt, hform.aes, by omega, hraw⟩
  rw [endFuel] at hfuel
  have hdriven : Driven L dst ram.fwInfo D _
      (d.drive destPolicy ram.fwInfo.rawSize fuel d.init 0 (src.len - fwInfoSize)
        (src.plain P s.flash ram.fwInfo)) :=
    hform.driven hI hmem hraw (by omega) (by omega) (by omega) hd
  obtain ⟨n, hout⟩ := hdriven.out
  have hclear : HeaderClear dst ram.fwInfo _ ↔ _ := headerClear_padded (written ram.fwInfo D) n
  have htake : (d.drive destPolicy ram.fwInfo.rawSize fuel d.init 0 (src.len - fwInfoSize)
      (src.plain P s.flash ram.fwInfo)).out.take ram.fwInfo.rawSize = D.take ram.fwInfo.rawSize := by
    have hle := congrArg List.length (take_written ram.fwInfo D)
    have hD := hform.rawSize_le
    rw [List.length_take, List.length_take] at hle
    rw [hout, List.take_append_of_le_length (by omega), take_written]
  rw [← hclear, ← hout]
  -- a drive over any such board is the drive over this one
  have hsame : ∀ t : Board, dst.SameElsewhere s.flash t.flash →
      src.plain P t.flash ram.fwInfo = src.plain P s.flash ram.fwInfo :=
    fun t ht => ht.plain_eq hmem hmem' hne hfits
  generalize hT : d.drive destPolicy ram.fwInfo.rawSize fuel d.init 0 (src.len - fwInfoSize)
    (src.plain P s.flash ram.fwInfo) = T at hdriven hout htake ⊢
  constructor
  · intro hall
    right
    have hsame' := Board.startingUnlike_elsewhere (s := s) hmem (T.out.getD 0 0xFF)
    obtain ⟨ram', yes, s', hrun, hends⟩ := hall _ hsame'
    have hT' := hT
    rw [← hsame _ hsame'] at hT'
    have hwritten := of_run (wp_qbtFwUpdate_written hcalm hr hform.raw_pos hd hT'.symm hdriven.reached
      hdriven.within) hrun
    rcases hends with ⟨rfl, himage, htail⟩ | ⟨rfl, hkept⟩
    · refine (released_clear_iff hmem hraw hdriven.enough (hwritten.2 rfl)).1 ⟨?_, htail⟩
      rw [himage, htake]
    · have hfirst := hkept 0 (Nat.lt_of_lt_of_le (by decide) (blk_le_len hmem))
      rw [hwritten.1, Board.byte_startingUnlike] at hfirst
      exact absurd hfirst.symm (complement_ne _)
  · rintro (hlong | hharmless)
    · omega
    intro t ht
    have hT' := hT
    rw [← hsame t ht] at hT'
    have hcrc : ram.fwInfo.verifyType = qbootAlgo2VerifyCrc →
        (crc32Cal (T.out.take ram.fwInfo.rawSize)).toNat = ram.fwInfo.rawCrc := by
      intro hverify
      rw [hflash] at hform hplain
      rw [htake]
      have hdriven₀ : ∀ d', decoderOf P fuel ram.fwInfo.cmprsType = some d' →
          Driven L dst ram.fwInfo D (d'.drive crcPolicy ram.fwInfo.rawSize fuel d'.init 0
            (src.len - fwInfoSize) (src.plain P s₀.flash ram.fwInfo)) _ := fun d' hd' =>
        hform.driven hI hmem hraw (by omega) (by omega) (by omega) hd'
      exact crc_of_check hI hcalm hname hchecked hfw.symm hform (by omega) (by omega)
        (fun d' hd' => ⟨(hdriven₀ d' hd').dry_reached, (hdriven₀ d' hd').image⟩) hverify
    obtain ⟨⟨ram', yes⟩, s', hrun, hyes, hreleased⟩ := Prog.run_done_of_wp
      (wp_qbtFwUpdate_clear hcalm hr hform.raw_pos hd hT'.symm hdriven.reached hdriven.enough
        hdriven.within hharmless hheader hcrc (by rw [qbootBufSize]; omega))
    obtain ⟨himage, htail⟩ := (released_clear_iff hmem hraw hdriven.enough hreleased).2 hharmless
    exact ⟨ram', yes, s', hrun, Or.inl ⟨hyes, himage.trans htake, htail⟩⟩

/-! ## A byte too long -/

/-- The name of the application partition in a header. -/
def appInfo : PackInfo := ⟨qbootAppPartName, [], [], 0, 0⟩

/-- A file for the application, stored uncompressed in the download partition. -/
def appDownload (file : List UInt8) : Board :=
  Board.powerUp (downloaded .stored .none false appInfo file)

/-- The package of such a file is in order, whether it fits the application partition or not. -/
theorem appDownload_packed {file : List UInt8} (hpos : 0 < file.length)
    (hfits : file.length ≤ 1048480) (ram : Ram Codecs.stored)
    (hfw : ram.fwInfo = (toolHdr .stored .none false appInfo file).info) :
    Packed falPartTable factoryPart downloadPart (.lit qbootFactoryPartName)
      (.lit qbootDownloadPartName) .stored .none false appInfo file ram (appDownload file).flash := by
  refine packed_board ?_ (by decide) hfw hpos hfits hfits
  show falPartitionFind falPartTable qbootFactoryPartName = some factoryPart
  decide

/-- A file of zeros that is longer than the place in front of the header. -/
theorem not_allOrNothing_zeros {n : ℕ} (hlong : appPart.tail < n) (hn : n ≤ appPart.len) :
    ∃ ram s, (qbtFwCheck falPartTable 4194304 qbootDownloadPartName (Ram.boot Codecs.stored)).run
        (world falPartTable calmEnv) (appDownload (List.replicate n 0)) = .done (ram, true) s ∧
      DecodesTo Codecs.stored 4194304 ram.fwInfo
        (downloadPart.plain Codecs.stored s.flash ram.fwInfo) (List.replicate n 0) ∧
      ¬ AllOrNothing falPartTable calmEnv 4194304 appPart (.lit qbootAppPartName)
        (.lit qbootDownloadPartName) ram (List.replicate n 0) s := by
  have htail : appPart.tail = 393120 := rfl
  have hlenApp : appPart.len = 393216 := rfl
  have hlen : (List.replicate n (0 : UInt8)).length = n := List.length_replicate
  have hzero : ∀ i < n, (List.replicate n (0 : UInt8)).getD i 0xFF = 0 := by
    intro i hi
    rw [List.getD_eq_getElem _ _ (by omega), List.getElem_replicate]
  generalize List.replicate n (0 : UInt8) = file at hlen hzero ⊢
  have hpos : 0 < file.length := by omega
  have hfits : file.length ≤ 1048480 := by omega
  have hpacked := appDownload_packed hpos hfits
  have hp := hpacked (headerRead Codecs.stored (toolHdr .stored .none false appInfo file)) rfl
  have hraw := hp.rawSize
  have hpkg : (toolHdr .stored .none false appInfo file).info.pkgSize = file.length := hp.pkgSize
  have hd : decoderOf Codecs.stored 4194304 (toolHdr .stored .none false appInfo file).info.cmprsType =
      some noneDecoder := by
    rw [toolHdr_cmprsType]
    rfl
  have hcrypt : (toolHdr .stored .none false appInfo file).info.cryptType = qbootAlgoCryptNone :=
    toolHdr_cryptType
  have haes : (toolHdr .stored .none false appInfo file).info.cryptType = qbootAlgoCryptAes →
      16 ∣ (toolHdr .stored .none false appInfo file).info.pkgSize := by
    rw [hcrypt]
    exact fun h => absurd h (by decide)
  have hcheck : (qbtFwCheck falPartTable 4194304 qbootDownloadPartName (Ram.boot Codecs.stored)).wp
      (world falPartTable calmEnv) (fun r s' => r.2 = true ∧
        r.1.fwInfo = (toolHdr .stored .none false appInfo file).info ∧
        s'.flash = (appDownload file).flash) (fun _ _ => False) (appDownload file) :=
    wp_qbtFwCheck_unverified calmEnv_calm hp.src_find hp.info_eq (RblHdr.infoCheck _)
      toolHdr_verifyType (by rw [hpkg]; exact hp.fits) hp.bodyCrc (by rw [hpkg, qbootBufSize]; omega)
  obtain ⟨⟨ram, ok⟩, s, hrun, rfl, hfw, hflash⟩ := Prog.run_done_of_wp hcheck
  simp only at hfw
  have hplain : downloadPart.plain Codecs.stored s.flash ram.fwInfo = file := by
    rw [hflash, hfw]
    exact hp.plain fun hfalse => Bool.noConfusion hfalse
  refine ⟨ram, s, hrun, ?_, ?_⟩
  · rw [hplain, hfw]
    exact ⟨by omega, Or.inl hcrypt, haes, ⟨noneDecoder, (), hd, noneDecoder_decodeAll file⟩,
      Or.inl hraw.symm⟩
  rintro ⟨ram', yes, s', hupdate, hends⟩
  rw [← hfw] at hd haes hraw hcrypt hpkg
  have happ : falPartitionFind falPartTable qbootAppPartName = some appPart := by decide
  have hdownload : falPartitionFind falPartTable qbootDownloadPartName = some downloadPart := by decide
  have hr : Releasable falPartTable appPart downloadPart (.lit qbootAppPartName)
      (.lit qbootDownloadPartName) ram ram.fwInfo :=
    ⟨happ, hdownload, by decide, rfl, Or.inl hcrypt, haes, by rw [fwInfoSize]; omega, by omega⟩
  obtain ⟨hfin, hout, -⟩ := uncompressed_drive (s := s) (fun hfalse => Bool.noConfusion hfalse)
    (hflash ▸ hpacked ram hfw) (by omega : file.length < 4194304) rfl
  rw [← hfw] at hfin hout
  have hstored : (storedPlain false file).take (roundUp file.length qbootCmprsReadSize) = file :=
    List.take_of_length_le (le_roundUp _ (by decide))
  rw [hstored] at hout
  have hwritten := of_run (wp_qbtFwUpdate_written calmEnv_calm hr (by omega) hd rfl hfin (by
    rw [hout, hraw]
    exact le_eraseStop ..)) hupdate
  rw [hout] at hwritten
  rcases hends with ⟨rfl, himage, hheader⟩ | ⟨rfl, hkept⟩
  · have hclear := (released_clear_iff (mem_of_find happ) (by omega) (by omega) (hwritten.2 rfl)).1
      ⟨himage, hheader⟩
    have hbits := (hclear 0 (by decide)).1
    rw [Nat.add_zero, hzero _ (by omega), hfw, RblHdr.info_bytes] at hbits
    exact absurd hbits (by decide : ¬ (0x52 : UInt8) &&& 0 = 0x52)
  · have hfirst := hkept 0 (by omega)
    rw [hwritten.1, hzero 0 (by omega), hflash] at hfirst
    have hblank : appPart.byte (appDownload file).flash 0 = 0xFF := rfl
    rw [hblank] at hfirst
    exact absurd hfirst (by decide)

/-- The target is erased, written and then refused for an image that leaves the header a byte too little. -/
theorem byteTooLong_destroysTarget :
    ∃ ram s, (qbtFwCheck falPartTable 4194304 qbootDownloadPartName (Ram.boot Codecs.stored)).run
        (world falPartTable calmEnv) (appDownload (List.replicate 393121 0)) = .done (ram, true) s ∧
      DecodesTo Codecs.stored 4194304 ram.fwInfo
        (downloadPart.plain Codecs.stored s.flash ram.fwInfo) (List.replicate 393121 0) ∧
      ¬ AllOrNothing falPartTable calmEnv 4194304 appPart (.lit qbootAppPartName)
        (.lit qbootDownloadPartName) ram (List.replicate 393121 0) s := by
  apply not_allOrNothing_zeros
  · decide
  · decide

/-- The vector words, checked by CRC and released to the application partition. -/
theorem update_allOrNothing_vectorWords : ∃ ram s,
    (qbtFwCheck falPartTable (endFuel wordsHdr.info) qbootDownloadPartName (Ram.boot Codecs.stored)).run
      (world falPartTable calmEnv) (wordsHdr.stored vectorWords) = .done (ram, true) s ∧
    ((∀ t : Board, appPart.SameElsewhere s.flash t.flash →
        AllOrNothing falPartTable calmEnv (endFuel wordsHdr.info) appPart (.lit qbootAppPartName)
          (.lit qbootDownloadPartName) ram vectorWords t) ↔
      appPart.len < ram.fwInfo.rawSize ∨
        HeaderClear appPart ram.fwInfo (written ram.fwInfo vectorWords)) := by
  obtain ⟨ram, s, hrun⟩ : ∃ ram s, (qbtFwCheck falPartTable (endFuel wordsHdr.info)
      qbootDownloadPartName (Ram.boot Codecs.stored)).run (world falPartTable calmEnv)
        (wordsHdr.stored vectorWords) = .done (ram, true) s :=
    exists_of_answer (by decide +kernel)
  have hsrc : falPartitionFind falPartTable qbootDownloadPartName = some downloadPart := by decide
  have hdst : falPartitionFind falPartTable qbootAppPartName = some appPart := by decide
  obtain ⟨hfw, hflash⟩ : ram.fwInfo = downloadPart.info (wordsHdr.stored vectorWords).flash 0 ∧
      s.flash = (wordsHdr.stored vectorWords).flash := by
    have hwp : (qbtFwCheck falPartTable (endFuel wordsHdr.info) qbootDownloadPartName
        (Ram.boot Codecs.stored)).wp (world falPartTable calmEnv) _ _ (wordsHdr.stored vectorWords) :=
      wp_qbtFwCheck_info calmEnv_calm hsrc _
    rw [Prog.wp_iff_run, hrun] at hwp
    exact hwp
  have hinfo : downloadPart.info (wordsHdr.stored vectorWords).flash 0 = wordsHdr.info := by
    apply Buffer.ext_bytes
    decide +kernel
  rw [hinfo] at hfw
  have hform : DecodesTo Codecs.stored (endFuel wordsHdr.info) ram.fwInfo
      (downloadPart.plain Codecs.stored s.flash ram.fwInfo) vectorWords := by
    rw [hfw, hflash, wordsHdr_plain]
    refine ⟨by decide +kernel, Or.inl (by decide +kernel), by decide +kernel,
      ⟨noneDecoder, (), wordsHdr_decoder _, noneDecoder_decodeAll _⟩, Or.inl (by decide +kernel)⟩
  exact ⟨ram, s, hrun, update_allOrNothing_iff streams_stored calmEnv_calm hsrc hrun hdst hsrc (by decide)
    hform (Nat.le_of_eq (congrArg endFuel hfw))⟩

end RtThreadOta
