import RtThreadOta.Qboot.Termination

/-!
# When the dry run agrees with the release

`qbt_app_crc_check` decodes a package as `qbt_fw_release` does, but it cuts every block of a call to the
bytes that were missing before the call, while the release writes blocks whole and pads what it flushes.
So the two take the same bytes up to the call in which `raw_size` is reached, and there only when it
decodes what is missing or a single block.
-/

namespace RtThreadOta

open Interaction Words

variable {L : Layout} {P : Codecs} {env : Env} {dst src : FalPartition}

/-! ## Replies that both take alike -/

section Reply

variable {A : Type} {left : ℕ} {r : Reply A}

/-- What a reply hands over: its chunks, and what it flushes if that is anything. -/
def Reply.handed (r : Reply A) : List (List UInt8) :=
  if r.tail = [] then r.chunks else r.chunks ++ [r.tail]

theorem Reply.handed_flatten (r : Reply A) : r.handed.flatten = r.bytes := by
  rw [handed, bytes]
  split
  · rename_i h
    rw [h, List.append_nil]
  · rw [List.flatten_append, List.flatten_singleton]

/-- The dry run cuts each of them to what was missing. -/
theorem crcPolicy_taken (left : ℕ) (r : Reply A) :
    crcPolicy.chunkBytes left r ++ crcPolicy.tailBytes left r = r.handed.flatMap (·.take left) := by
  rw [Policy.chunkBytes, Policy.tailBytes, Reply.handed]
  split
  · exact List.append_nil _
  · rw [List.flatMap_append, List.flatMap_singleton]
    rfl

/-- Blocks that bring no more than what was missing are not cut. -/
theorem flatMap_take_of_le {bss : List (List UInt8)} (h : bss.flatten.length ≤ left) :
    bss.flatMap (·.take left) = bss.flatten := by
  induction bss with
  | nil => rfl
  | cons bs bss ih =>
    rw [List.flatten_cons, List.length_append] at h
    rw [List.flatMap_cons, List.flatten_cons, ih (by omega), List.take_of_length_le (by omega)]

theorem crcPolicy_taken_of_le (h : r.bytes.length ≤ left) :
    crcPolicy.chunkBytes left r ++ crcPolicy.tailBytes left r = r.bytes := by
  rw [crcPolicy_taken, flatMap_take_of_le (by rwa [Reply.handed_flatten]), Reply.handed_flatten]

/-- A single block is cut to what is missing of the whole. -/
theorem crcPolicy_taken_of_single (h : r.handed.length = 1) :
    crcPolicy.chunkBytes left r ++ crcPolicy.tailBytes left r = r.bytes.take left := by
  obtain ⟨bs, hbs⟩ := List.length_eq_one_iff.1 h
  rw [crcPolicy_taken, ← Reply.handed_flatten, hbs]
  simp only [List.flatMap_cons, List.flatMap_nil, List.flatten_cons, List.flatten_nil, List.append_nil]

theorem destPolicy_chunkBytes (left : ℕ) (r : Reply A) :
    destPolicy.chunkBytes left r = r.chunks.flatten := List.flatMap_id

/-- The release writes what the reply hands over, and the padding of a flush. -/
theorem destPolicy_taken (left : ℕ) (r : Reply A) :
    destPolicy.chunkBytes left r ++ destPolicy.tailBytes left r =
      r.bytes ++ if r.tail = [] then []
        else List.replicate (gzipRemainBufSize - r.tail.length) 0xFF := by
  rw [destPolicy_chunkBytes, Policy.tailBytes, Reply.bytes]
  split
  · rename_i h
    rw [h, List.append_nil, List.append_nil]
  · exact (List.append_assoc ..).symm

theorem destPolicy_taken_of_nil (h : r.tail = []) :
    destPolicy.chunkBytes left r ++ destPolicy.tailBytes left r = r.bytes := by
  rw [destPolicy_taken, if_pos h, List.append_nil]

end Reply

/-! ## Packages that both count alike -/

/-- The bytes of a package from a piece on: no flush while bytes are missing, and the call in which
`raw_size` is reached decodes just what is missing, or a single block that ends in front of `stop`. -/
def Decoder.EndsEvenly (d : Decoder) (rawSize stop : ℕ) :
    (fuel : ℕ) → d.State → (pos : ℕ) → (rest : List UInt8) → Prop
  | 0, _, _, _ => True
  | fuel + 1, a, pos, rest =>
    pos < rawSize →
      let r := d.feed a (rest.take qbootCmprsReadSize)
      match r.next with
      | .more a' =>
        if pos + r.bytes.length < rawSize then
          r.tail = [] ∧ d.EndsEvenly rawSize stop fuel a' (pos + r.bytes.length)
            (rest.drop qbootCmprsReadSize)
        else pos + r.bytes.length = rawSize ∨ r.handed.length = 1 ∧ pos + r.bytes.length ≤ stop
      | _ => True

section Drive

variable {d : Decoder} {rawSize stop unit fuel pos avail : ℕ} {a : d.State} {rest : List UInt8}

/-- The two drives end alike, and what the dry run took is the image at the start of what was written. -/
structure Agrees (rawSize stop pos : ℕ) (dry real : Trace) : Prop where
  fin : dry.fin = real.fin
  enough : real.fin = .reached → rawSize ≤ pos + real.out.length
  image : real.fin = .reached → dry.out = real.out.take (rawSize - pos)
  within : real.fin = .reached → pos + real.out.length ≤ stop

/-- A call that brings no more than what is missing, and after which both go on. -/
theorem Agrees.after {A : Type} {r : Reply A} {dry real : Trace}
    (h : Agrees rawSize stop (pos + r.bytes.length) dry real) (htail : r.tail = [])
    (hlt : pos + r.bytes.length < rawSize) :
    Agrees rawSize stop pos (Trace.after crcPolicy (rawSize - pos) pos r dry)
      (Trace.after destPolicy (rawSize - pos) pos r real) := by
  have hdry : crcPolicy.chunkBytes (rawSize - pos) r ++ crcPolicy.tailBytes (rawSize - pos) r =
      r.bytes := crcPolicy_taken_of_le (by omega)
  have hreal : destPolicy.chunkBytes (rawSize - pos) r ++ destPolicy.tailBytes (rawSize - pos) r =
      r.bytes := destPolicy_taken_of_nil htail
  constructor
  · exact h.fin
  · intro hreached
    have henough := h.enough hreached
    rw [Trace.after_out, hreal, List.length_append]
    omega
  · intro hreached
    have hsub : rawSize - pos = r.bytes.length + (rawSize - (pos + r.bytes.length)) := by omega
    rw [Trace.after_out, Trace.after_out, hdry, hreal, h.image hreached, hsub, List.take_length_add_append]
  · intro hreached
    have hwithin := h.within hreached
    rw [Trace.after_out, hreal, List.length_append]
    omega

/-- The call in which `raw_size` is reached: what it writes ends where it is erased, and the dry run takes
what is missing of it. -/
theorem last_taken {A : Type} {r : Reply A} (hraw : rawSize ≤ stop) (hpos : pos < rawSize)
    (hstop : gzipRemainBufSize ∣ stop)
    (hunit : r.tail ≠ [] → gzipRemainBufSize ∣ pos + r.chunks.flatten.length ∧
      r.tail.length < gzipRemainBufSize)
    (hge : rawSize ≤ pos + r.bytes.length)
    (heven : pos + r.bytes.length = rawSize ∨ r.handed.length = 1 ∧ pos + r.bytes.length ≤ stop) :
    crcPolicy.chunkBytes (rawSize - pos) r ++ crcPolicy.tailBytes (rawSize - pos) r =
        (destPolicy.chunkBytes (rawSize - pos) r ++ destPolicy.tailBytes (rawSize - pos) r).take
          (rawSize - pos) ∧
      rawSize ≤ pos +
        (destPolicy.chunkBytes (rawSize - pos) r ++ destPolicy.tailBytes (rawSize - pos) r).length ∧
      pos + (destPolicy.chunkBytes (rawSize - pos) r ++
        destPolicy.tailBytes (rawSize - pos) r).length ≤ stop := by
  have htaken : crcPolicy.chunkBytes (rawSize - pos) r ++ crcPolicy.tailBytes (rawSize - pos) r =
      r.bytes.take (rawSize - pos) := by
    rcases heven with heq | ⟨hsingle, -⟩
    · rw [crcPolicy_taken_of_le (by omega), List.take_of_length_le (by omega)]
    · exact crcPolicy_taken_of_single hsingle
  have hle : pos + r.bytes.length ≤ stop := by
    rcases heven with heq | ⟨-, hle⟩
    · omega
    · exact hle
  have hbytes : r.bytes.length = r.chunks.flatten.length + r.tail.length := List.length_append
  refine ⟨?_, ?_, ?_⟩
  · rw [htaken, destPolicy_taken, List.take_append_of_le_length (by omega)]
  · rw [destPolicy_taken, List.length_append]
    omega
  · rw [destPolicy_taken, List.length_append]
    by_cases htail : r.tail = []
    · rw [if_pos htail, List.length_nil]
      exact hle
    · -- the padding ends with the group of 32 bytes in which the flush began
      obtain ⟨hdvd, hlt⟩ := hunit htail
      have hpositive := List.length_pos_iff.2 htail
      rw [if_neg htail, List.length_replicate]
      rw [gzipRemainBufSize] at *
      omega

theorem Decoder.EndsEvenly.agrees (hlaw : d.Lawful unit) (hraw : rawSize ≤ stop)
    (hstop : gzipRemainBufSize ∣ stop) (hlt : stop < 4294967296) (hunit : unit ∣ pos)
    (hpos : pos ≤ stop) (h : d.EndsEvenly rawSize stop fuel a pos rest) :
    Agrees rawSize stop pos (d.drive crcPolicy rawSize fuel a pos avail rest)
      (d.drive destPolicy rawSize fuel a pos avail rest) := by
  induction fuel generalizing a pos avail rest with
  | zero => exact ⟨rfl, DriveEnd.noConfusion, DriveEnd.noConfusion, DriveEnd.noConfusion⟩
  | succ fuel ih =>
    rcases Nat.lt_or_ge pos rawSize with hmissing | hreached
    swap
    · rw [Decoder.drive_reached hreached, Decoder.drive_reached hreached]
      exact ⟨rfl, fun _ => hreached, fun _ => List.take_nil.symm, fun _ => hpos⟩
    rcases Nat.lt_or_ge avail (rest.take qbootCmprsReadSize).length with hout | hin
    · rw [Decoder.drive_out hmissing hout, Decoder.drive_out hmissing hout]
      exact ⟨rfl, DriveEnd.noConfusion, DriveEnd.noConfusion, DriveEnd.noConfusion⟩
    have heven := h hmissing
    rw [Decoder.drive_piece hmissing hin, Decoder.drive_piece hmissing hin]
    have hdvd : ∀ c ∈ (d.feed a (rest.take qbootCmprsReadSize)).chunks, unit ∣ c.length := hlaw.dvd _ _
    have htail := hlaw.tail a (rest.take qbootCmprsReadSize)
    simp only at heven
    generalize d.feed a (rest.take qbootCmprsReadSize) = r at heven hdvd htail ⊢
    have hchunks : unit ∣ pos + r.chunks.flatten.length := by
      rw [← destPolicy_chunkBytes 0 r]
      exact Nat.dvd_add hunit (dvd_chunkBytes hdvd)
    cases hnext : r.next with
    | bad => exact ⟨rfl, DriveEnd.noConfusion, DriveEnd.noConfusion, DriveEnd.noConfusion⟩
    | stop x =>
      have hno : ¬ DriveEnd.stop x = .reached := DriveEnd.noConfusion
      exact ⟨rfl, fun h => absurd h hno, fun h => absurd h hno, fun h => absurd h hno⟩
    | more a' =>
      rw [hnext] at heven
      simp only at heven ⊢
      by_cases hmore : pos + r.bytes.length < rawSize
      · rw [if_pos hmore] at heven
        obtain ⟨hnil, heven⟩ := heven
        have hbytes : r.bytes.length = r.chunks.flatten.length := by
          rw [Reply.bytes, hnil, List.append_nil]
        rw [crcPolicy_taken_of_le (by omega), destPolicy_taken_of_nil hnil, u32_of_lt (by omega)]
        exact (ih (hbytes ▸ hchunks) (by omega) heven).after hnil hmore
      · rw [if_neg hmore] at heven
        obtain ⟨himage, henough, hwithin⟩ := last_taken hraw hmissing hstop
          (fun hne => by
            obtain ⟨rfl, hshort⟩ := htail hne
            exact ⟨hchunks, hshort⟩)
          (Nat.le_of_not_lt hmore) heven
        have hcount : (crcPolicy.chunkBytes (rawSize - pos) r ++
            crcPolicy.tailBytes (rawSize - pos) r).length = rawSize - pos := by
          rw [himage, List.length_take]
          omega
        rw [hcount, u32_of_lt (by omega), u32_of_lt (by omega)]
        cases fuel with
        | zero => exact ⟨rfl, DriveEnd.noConfusion, DriveEnd.noConfusion, DriveEnd.noConfusion⟩
        | succ fuel =>
          rw [Decoder.drive_reached (by omega), Decoder.drive_reached henough]
          constructor
          · rfl
          · intro _
            rw [Trace.after_out, List.append_nil]
            exact henough
          · intro _
            rw [Trace.after_out, Trace.after_out, List.append_nil, List.append_nil]
            exact himage
          · intro _
            rw [Trace.after_out, List.append_nil]
            exact hwithin

/-- Without empty chunks nothing empty is put out. -/
theorem Decoder.drive_puts (h : ∀ a piece, ∀ c ∈ (d.feed a piece).chunks, c ≠ []) :
    ∀ c ∈ (d.drive destPolicy rawSize fuel a pos avail rest).puts, c ≠ [] := by
  induction fuel generalizing a pos avail rest with
  | zero =>
    intro c hc
    cases hc
  | succ fuel ih =>
    rcases Nat.lt_or_ge pos rawSize with hlt | hge
    swap
    · rw [Decoder.drive_reached hge]
      intro c hc
      cases hc
    rcases Nat.lt_or_ge avail (rest.take qbootCmprsReadSize).length with hout | hin
    · rw [Decoder.drive_out hlt hout]
      intro c hc
      cases hc
    rw [Decoder.drive_piece hlt hin]
    have hchunks := h a (rest.take qbootCmprsReadSize)
    generalize d.feed a (rest.take qbootCmprsReadSize) = r at hchunks ⊢
    have hputs : ∀ c ∈ r.chunks.map (destPolicy.put (rawSize - pos)), c ≠ [] := by
      intro c hc
      obtain ⟨c', hc', rfl⟩ := List.mem_map.1 hc
      exact hchunks c' hc'
    cases r.next with
    | bad => exact hputs
    | stop x => exact hputs
    | more a' =>
      simp only
      rw [Trace.after_puts]
      exact List.forall_mem_append.2 ⟨hputs, ih⟩

/-- An uncompressed package puts out nothing empty on its way to the end. -/
theorem noneDecoder_puts {a : noneDecoder.State} (hraw : rawSize < 4294967296)
    (hfin : (noneDecoder.drive destPolicy rawSize fuel a pos avail rest).fin = .reached) :
    ∀ c ∈ (noneDecoder.drive destPolicy rawSize fuel a pos avail rest).puts, c ≠ [] := by
  induction fuel generalizing a pos avail rest with
  | zero => exact DriveEnd.noConfusion hfin
  | succ fuel ih =>
    rcases Nat.lt_or_ge pos rawSize with hlt | hge
    swap
    · rw [Decoder.drive_reached hge]
      intro c hc
      cases hc
    by_cases hrest : rest = []
    · subst hrest
      rw [noneDecoder_tame.drive_idle destPolicy_fair rfl hlt (by omega)] at hfin
      exact DriveEnd.noConfusion hfin
    rcases Nat.lt_or_ge avail (rest.take qbootCmprsReadSize).length with hout | hin
    · rw [Decoder.drive_out hlt hout] at hfin
      exact DriveEnd.noConfusion hfin
    rw [Decoder.drive_piece hlt hin] at hfin ⊢
    intro c hc
    rcases List.mem_append.1 hc with hc | hc
    · obtain rfl := List.mem_singleton.1 hc
      intro hnil
      rcases List.take_eq_nil_iff.1 hnil with h | h
      · exact absurd h (by decide)
      · exact hrest h
    · exact ih hfin c hc

end Drive

theorem decoderOf_puts {fuel cmprsType : ℕ} {d : Decoder} (hd : decoderOf P fuel cmprsType = some d)
    {rawSize pos avail : ℕ} {rest : List UInt8} (hraw : rawSize < 4294967296)
    (hfin : (d.drive destPolicy rawSize fuel d.init pos avail rest).fin = .reached) :
    ∀ c ∈ (d.drive destPolicy rawSize fuel d.init pos avail rest).puts, c ≠ [] := by
  have hframed : ∀ decompress, ∀ a piece,
      ∀ c ∈ ((framedDecoder decompress).feed a piece).chunks, c ≠ [] := by
    intro decompress residue piece c hc
    rcases Nat.lt_or_ge qbootCmprsBufSize (List.length residue + piece.length) with hover | hfit
    · rw [framedDecoder_overrun hover] at hc
      cases hc
    · rw [framedDecoder_feed hfit] at hc
      exact List.length_pos_iff.1 ((drain_chunks _ _).2 c hc).1
  rw [decoderOf] at hd
  split at hd
  · obtain rfl := Option.some.inj hd
    exact noneDecoder_puts hraw hfin
  split at hd
  · obtain rfl := Option.some.inj hd
    apply Decoder.drive_puts
    intro a piece c hc
    exact List.length_pos_iff.1 ((inflateRounds_chunks P.inflater piece.length fuel a.1 piece a.2).2 c hc).2.1
  split at hd
  · obtain rfl := Option.some.inj hd
    exact Decoder.drive_puts (hframed _)
  split at hd
  · obtain rfl := Option.some.inj hd
    exact Decoder.drive_puts (hframed _)
  · cases hd

/-! ## The two functions -/

section Package

variable {s : Board} {info : FwInfo} {ram : Ram P} {fuel : ℕ}

/-- What the dry run says of a package it can decode. -/
theorem wp_qbtAppCrcCheck_decided (hI : P.inflater.Streams) (hcalm : Calm env) {name : List UInt8}
    (hname : falPartitionFind L name = some src) (hinfo : ram.fwInfo = info)
    (hcrypt : CryptSupported info) (haes : info.cryptType = qbootAlgoCryptAes → 16 ∣ info.pkgSize)
    (hpkg : info.pkgSize < 2147483648) (hraw : info.rawSize < 2147483648)
    (hfuel : inflateFuel ≤ fuel) {d : Decoder} (hd : decoderOf P fuel info.cmprsType = some d)
    {T : Trace} (hT : T = d.drive crcPolicy info.rawSize fuel d.init 0 (src.len - fwInfoSize)
      (src.plain P s.flash info)) :
    (qbtAppCrcCheck L fuel name ram).wp (world L env)
      (fun r _ => T.fin = .bad ∧ r.2 = false ∨
        T.fin = .reached ∧ r.2 = decide ((crc32Cal T.out).toNat = info.rawCrc))
      (fun _ _ => True) s := by
  obtain ⟨Good, Dry, ht, -⟩ := decoderOf_tame hI hfuel hd
  have hout : 0 + (d.drive crcPolicy info.rawSize fuel d.init 0 (src.len - fwInfoSize)
      (src.plain P s.flash info)).out.length ≤ info.rawSize + 67108896 :=
    ht.drive_out_le crcPolicy_fair hraw ht.init (Nat.zero_le _)
  rw [← hT] at hout
  refine wp_qbtAppCrcCheck hname (hcalm.readsQuiet src) (fun _ _ => trivial) hinfo hcrypt haes hpkg hd
    hT (Or.inr (by omega)) (fun hbad _ _ => Or.inl ⟨hbad, rfl⟩)
    (fun hreached _ _ _ _ => Or.inr ⟨hreached, rfl⟩) fun _ _ _ => trivial

/-- What a run that ends satisfies. -/
theorem of_run {p : Code (Ram P × Bool)} {Q : Ram P × Bool → Board → Prop} {r : Ram P × Bool}
    {s' : Board} (h : p.wp (world L env) Q (fun _ _ => True) s)
    (hrun : p.run (world L env) s = .done r s') : Q r s' := by
  rw [Prog.wp_iff_run, hrun] at h
  exact h

end Package

/-! ## Two packages -/

/-- What a call says, when it comes to an end. -/
def answer (o : Outcome Halt Board (Ram P × Bool)) : Option Bool :=
  match o with
  | .done r _ => some r.2
  | _ => none

theorem exists_of_answer {o : Outcome Halt Board (Ram P × Bool)} {yes : Bool}
    (h : answer o = some yes) : ∃ ram s, o = .done (ram, yes) s := by
  unfold answer at h
  split at h
  · rename_i r s
    obtain rfl := Option.some.inj h
    exact ⟨r.1, s, rfl⟩
  · cases h

/-- The header of an app package that is checked by CRC. -/
def crcHdr (algo : ℕ) (body image : List UInt8) : RblHdr :=
  ⟨algo + 0x10000, 0, qbootAppPartName, [], [], (crc32Cal body).toNat, (crc32Cal image).toNat,
    image.length, body.length⟩

/-- The package in the download partition. -/
def RblHdr.stored (h : RblHdr) (body : List UInt8) : Board :=
  Board.powerUp (downloadPart.holding (h.bytes ++ body))

/-- The memory with the header read. -/
def RblHdr.read (h : RblHdr) : Ram Codecs.stored := { Ram.boot Codecs.stored with fwInfo := h.info }

/-- The header of a package of the vector words, not compressed. -/
def wordsHdr : RblHdr := crcHdr qbootAlgoCmprsNone vectorWords vectorWords

theorem wordsHdr_plain : downloadPart.plain Codecs.stored (wordsHdr.stored vectorWords).flash
    wordsHdr.info = vectorWords := by
  decide +kernel

theorem wordsHdr_decoder (fuel : ℕ) :
    decoderOf Codecs.stored fuel wordsHdr.info.cmprsType = some noneDecoder := by
  have hcmprs : wordsHdr.info.cmprsType = qbootAlgoCmprsNone := by decide +kernel
  rw [decoderOf, if_pos hcmprs]

end RtThreadOta
