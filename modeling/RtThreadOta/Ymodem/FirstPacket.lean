import RtThreadOta.Ymodem.FileSize

/-!
# The first packet (`ymodem_on_begin`)

What a payload announces is the number behind the name, whatever its size. The parser keeps only its
nearest `long`, takes a missing number for 0, and looks for both ends without regard to the end of the
payload.
-/

namespace RtThreadOta

open Interaction Words

/-! ## What a payload announces -/

/-- The number at the start of a text, were numbers unbounded; `none` when it has no digit. -/
def numberIn (text : List UInt8) : Option ℤ :=
  match text.dropWhile isSpace with
  | [] => none
  | c :: rest =>
    let ds := (if c = 45 ∨ c = 43 then rest else c :: rest).takeWhile isDigit
    if ds = [] then none
    else some (if c = 45 then -(digitsValue 0 ds : ℤ) else digitsValue 0 ds)

/-- The size that a payload announces: the number behind the name and its zero byte. -/
def announced (payload : List UInt8) : Option ℤ :=
  match payload.dropWhile fun b => decide (b ≠ 0) with
  | [] => none
  | _ :: text => numberIn text

/-- A name, a zero byte, decimal digits and their terminator. -/
def AnnouncesDecimal (payload : List UInt8) (v : ℕ) : Prop :=
  ∃ name ds c rest, payload = name ++ 0 :: (ds ++ c :: rest) ∧ (∀ b ∈ name, b ≠ 0) ∧ ds ≠ [] ∧
    (∀ b ∈ ds, isDigit b = true) ∧ isDigit c = false ∧ v = digitsValue 0 ds

/-- `atol` gives the number, or the `long` nearest to it, and 0 for no number. -/
theorem atol_eq {text : List UInt8} {i : ℤ} (h : atol text = some i) :
    i = max (-2147483648) (min 2147483647 ((numberIn text).getD 0)) := by
  rw [atol] at h
  rw [numberIn]
  cases hdrop : text.dropWhile isSpace with
  | nil =>
    rw [hdrop] at h
    cases h
  | cons c rest =>
    rw [hdrop] at h
    simp only at h ⊢
    -- without digits their value is 0
    have hvalue : ∀ {X : List UInt8} {n : ℕ}, digits X = some n →
        n = digitsValue 0 (X.takeWhile isDigit) := by
      intro X n hn
      rcases digits_cases X with ⟨-, hnone⟩ | ⟨ds, c, rest, -, -, -, hsome, htake⟩
      · rw [hn] at hnone
        cases hnone
      · rw [hn] at hsome
        rw [htake]
        exact Option.some.inj hsome
    have hempty : ∀ {ds : List UInt8}, ds = [] → digitsValue 0 ds = 0 := by
      rintro _ rfl
      rfl
    by_cases hminus : c = 45
    · rw [if_pos hminus] at h
      obtain ⟨n, hn, rfl⟩ := Option.map_eq_some_iff.1 h
      rw [if_pos (Or.inl hminus), if_pos hminus, hvalue hn]
      split_ifs with hds
      · rw [hempty hds]
        decide
      · rw [Option.getD_some]
        omega
    · rw [if_neg hminus] at h
      obtain ⟨n, hn, rfl⟩ := Option.map_eq_some_iff.1 h
      have hor : (c = 45 ∨ c = 43) ↔ c = 43 := ⟨fun h => h.resolve_left hminus, Or.inr⟩
      simp only [hor, if_neg hminus, hvalue hn]
      split_ifs with hplus hds hds
      all_goals
        first
        | rw [hempty hds]; decide
        | rw [Option.getD_some]; omega

theorem fileSize_eq {payload : List UInt8} {n : ℕ} (h : fileSize payload = some n) :
    n = ofInt32 (max (-2147483648) (min 2147483647 ((announced payload).getD 0))) := by
  rw [fileSize] at h
  rw [announced]
  cases hdrop : payload.dropWhile fun b => decide (b ≠ 0) with
  | nil =>
    rw [hdrop] at h
    cases h
  | cons c text =>
    rw [hdrop] at h
    obtain ⟨i, hi, rfl⟩ := Option.map_eq_some_iff.1 h
    rw [atol_eq hi]

theorem AnnouncesDecimal.announced {payload : List UInt8} {v : ℕ} (h : AnnouncesDecimal payload v) :
    announced payload = some (v : ℤ) := by
  obtain ⟨name, ds, c, rest, rfl, hname, hne, hds, hc, rfl⟩ := h
  have hdrop : (name ++ 0 :: (ds ++ c :: rest)).dropWhile (fun b => decide (b ≠ 0)) =
      0 :: (ds ++ c :: rest) := by
    rw [List.dropWhile_append_of_pos fun b hb => decide_eq_true (hname b hb),
      List.dropWhile_cons_of_neg (by decide)]
  obtain ⟨d, ds, rfl⟩ := List.exists_cons_of_ne_nil hne
  obtain ⟨hspace, hminus, hplus⟩ := isSpace_of_isDigit (hds d List.mem_cons_self)
  have hsign : ¬ (d = 45 ∨ d = 43) := not_or.2 ⟨hminus, hplus⟩
  have htake : ((d :: ds) ++ c :: rest).takeWhile isDigit = d :: ds := by
    rw [List.takeWhile_append_of_pos hds, List.takeWhile_cons_of_neg (by rw [hc]; decide),
      List.append_nil]
  rw [List.cons_append] at htake hdrop
  rw [RtThreadOta.announced, List.cons_append, hdrop]
  simp only [numberIn]
  rw [List.dropWhile_cons_of_neg (by rw [hspace]; decide)]
  simp only
  rw [if_neg hsign, htake, if_neg (List.cons_ne_nil _ _), if_neg hminus]

/-! ## The callback -/

variable {L : Layout} {env : Env} {s : Board} {part : FalPartition} {name : List UInt8} {ctx : RymCtx}
  {len n : ℕ}

/-- The variables of `ymodem_ota.c` when a file of `size` bytes was begun. -/
def RymCtx.begun (ctx : RymCtx) (L : Layout) (name : List UInt8) (size : ℕ) : RymCtx :=
  { ctx with
    updateFileTotalSize := size
    updateFileCurSize := 0
    dlPart := falPartitionFind L name }

/-- A file is not begun without a partition it fits. -/
theorem ymodemOnBegin_refused (hn : fileSize (ctx.buf.bytes.drop 3) = some n)
    (h : ∀ part, falPartitionFind L name = some part → part.len < n) :
    ymodemOnBegin L name ctx = Prog.ret (ctx.begun L name n, rymCodeCan) := by
  rw [ymodemOnBegin, hn]
  simp only
  cases hfind : falPartitionFind L name with
  | none =>
    simp only
    rw [RymCtx.begun, hfind]
  | some part =>
    simp only
    rw [if_pos (h part hfind), RymCtx.begun, hfind]

/-- A file that fits is begun when the blocks it will lie in were erased. -/
theorem wp_ymodemOnBegin_fits {Q : RymCtx × UInt8 → Board → Prop} {E : Option Halt → Board → Prop}
    (hn : fileSize (ctx.buf.bytes.drop 3) = some n) (hfind : falPartitionFind L name = some part)
    (hfit : n ≤ part.len) (hcut : ¬ Calm env → ∀ s', E none s')
    (hack : (n = 0 → part.dev = .nor) → ∀ s',
      s'.flash = part.erased s.flash 0 (eraseStop L part n) →
      Q (ctx.begun L name n, rymCodeAck) s')
    (hcan : (Calm env → n = 0 ∧ part.dev = .onchip) → ∀ s', (n = 0 → s'.flash = s.flash) →
      Q (ctx.begun L name n, rymCodeCan) s') :
    (ymodemOnBegin L name ctx).wp (world L env) Q E s := by
  have hp := mem_of_find hfind
  have hctx : { ctx with
      updateFileTotalSize := n
      updateFileCurSize := 0
      dlPart := some part } = ctx.begun L name n := by
    rw [RymCtx.begun, hfind]
  rw [ymodemOnBegin, hn]
  simp only
  rw [hfind, hctx]
  simp only
  rw [if_neg (Nat.not_lt.2 hfit), Prog.wp_bind]
  rcases Nat.eq_zero_or_pos n with rfl | hpos
  · refine wp_falPartitionErase_nothing hp hcut (fun hd r hr s' hs' => ?_) fun hd r s' hs' hcalm => ?_
    · rw [if_pos hr]
      exact hcan (fun _ => ⟨rfl, hd⟩) s' fun _ => hs'
    · by_cases hr : r < 0
      · rw [if_pos hr]
        exact hcan (fun h => absurd (hcalm h) (by omega)) s' fun _ => hs'
      · rw [if_neg hr]
        refine hack (fun _ => hd) s' ?_
        rw [eraseStop_zero, FalPartition.erased_self, hs']
  · refine wp_falPartitionErase hp hpos (by omega) hcut (fun s' hs' _ => ?_) fun hcalm r hr s' _ => ?_
    · rw [if_neg (by omega)]
      refine hack (fun h => absurd h (by omega)) s' ?_
      rw [hs', Nat.zero_add]
      rw [show eraseStart L part 0 = 0 from Nat.le_zero.1 (eraseStart_le L part 0)]
    · rw [if_pos hr]
      exact hcan (fun h => absurd h hcalm) s' fun h => absurd h (by omega)

/-- A returning call of the callback has set its variables. -/
theorem wp_ymodemOnBegin_begun {E : Option Halt → Board → Prop}
    (hn : fileSize (ctx.buf.bytes.drop 3) = some n) (hcut : ¬ Calm env → ∀ s', E none s') :
    (ymodemOnBegin L name ctx).wp (world L env) (fun r _ => r.1 = ctx.begun L name n) E s := by
  by_cases hfits : ∃ part, falPartitionFind L name = some part ∧ n ≤ part.len
  · obtain ⟨part, hfind, hfit⟩ := hfits
    exact wp_ymodemOnBegin_fits hn hfind hfit hcut (fun _ _ _ => rfl) fun _ _ _ => rfl
  · rw [ymodemOnBegin_refused hn fun part hfind =>
      Nat.not_le.1 fun hfit => hfits ⟨part, hfind, hfit⟩]
    exact rfl

/-! ## Which payloads are parsed well -/

/-- A payload announces a size that the partition has room for. -/
def Announces (L : Layout) (name payload : List UInt8) : Prop :=
  ∃ part v, falPartitionFind L name = some part ∧ announced payload = some v ∧ 0 ≤ v ∧ v ≤ part.len

/-- The parser stays within the payload and finds the number there, and a packet that announces no size
the partition has room for is refused with all flash as it was. -/
structure ParsedInside (L : Layout) (name : List UInt8) (ctx : RymCtx) (len : ℕ) : Prop where
  inside : ∀ mem, LiesAt mem 0 (ctx.buf.bytes.drop 3) → LoadsInside mem len
  size : ∀ env s r s' v, AnnouncesDecimal (ctx.buf.slice 3 len) v →
    (ymodemOnBegin L name ctx).run (world L env) s = .done r s' → r.1.updateFileTotalSize = v
  refused : ∀ env s r s', ¬ Announces L name (ctx.buf.slice 3 len) →
    (ymodemOnBegin L name ctx).run (world L env) s = .done r s' →
      r.2 = rymCodeCan ∧ s'.flash = s.flash

theorem LiesAt.payload {mem : ℕ → UInt8} (h : LiesAt mem 0 (ctx.buf.bytes.drop 3))
    (hlen : len ≤ 1024) : LiesAt mem 0 (ctx.buf.slice 3 len) := by
  rw [buf_payload ctx hlen] at h
  intro i hi
  rw [h i (by rw [List.length_append]; omega), List.getElem_append_left hi]

/-- A size that no partition has room for stays one when only its nearest `long` is kept. -/
theorem len_lt_ofInt32 (hp : part ∈ L.parts) {v : ℤ} (h : v < 0 ∨ (part.len : ℤ) < v) :
    part.len < ofInt32 (max (-2147483648) (min 2147483647 v)) := by
  have hlen := L.len_lt hp
  obtain ⟨k, hk⟩ := Nat.dvd_trans (L.chip.blkSize_dvd part.dev) (L.sound part hp).len_aligned
  rw [ofInt32]
  omega

/-- A payload in which both ends lie gives a size whatever lies behind it. -/
theorem fileSize_payload (hlen : len ≤ 1024) (hends : NameAndNumberEnd (ctx.buf.slice 3 len)) :
    ∃ n, fileSize (ctx.buf.bytes.drop 3) = some n ∧
      n = ofInt32 (max (-2147483648) (min 2147483647 ((announced (ctx.buf.slice 3 len)).getD 0))) := by
  obtain ⟨n, hn⟩ := fileSize_isSome_iff.2 hends
  refine ⟨n, ?_, fileSize_eq hn⟩
  rw [buf_payload ctx hlen]
  exact fileSize_append hn

theorem inside_iff (hlen : len ≤ 1024) :
    (∀ mem, LiesAt mem 0 (ctx.buf.bytes.drop 3) → LoadsInside mem len) ↔
      NameAndNumberEnd (ctx.buf.slice 3 len) := by
  have hiff : ∀ {mem}, LiesAt mem 0 (ctx.buf.bytes.drop 3) →
      (LoadsInside mem len ↔ NameAndNumberEnd (ctx.buf.slice 3 len)) := by
    intro mem hmem
    have hiff := loadsInside_iff_ends (hmem.payload hlen)
    rwa [Buffer.slice_length] at hiff
  have hmem : LiesAt (fun i => (ctx.buf.bytes.drop 3).getD i 0) 0 (ctx.buf.bytes.drop 3) := by
    intro i hi
    rw [Nat.zero_add]
    exact List.getD_eq_getElem _ _ hi
  exact ⟨fun h => (hiff hmem).1 (h _ hmem), fun hends mem hmem => (hiff hmem).2 hends⟩

section Sized

variable {payload : List UInt8} (hn : fileSize (ctx.buf.bytes.drop 3) = some n)
  (heq : n = ofInt32 (max (-2147483648) (min 2147483647 ((announced payload).getD 0))))

include hn heq

theorem size_iff : (∀ env s r s' v, AnnouncesDecimal payload v →
      (ymodemOnBegin L name ctx).run (world L env) s = .done r s' → r.1.updateFileTotalSize = v) ↔
    ∀ v, AnnouncesDecimal payload v → v < 2147483648 := by
  constructor
  · intro h v hv
    obtain ⟨r, s', hrun, hr⟩ := Prog.run_done_of_wp (@wp_ymodemOnBegin_begun L calmEnv
      ⟨fun _ _ => 0, 0, []⟩ name ctx n (fun _ _ => False) hn fun hcut => absurd calmEnv_calm hcut)
    have hsize := h calmEnv _ r s' v hv hrun
    rw [hr] at hsize
    have hnv : n = v := hsize
    rw [hv.announced, Option.getD_some, ofInt32] at heq
    omega
  · intro hlong env s r s' v hv hrun
    have hwp := @wp_ymodemOnBegin_begun L env s name ctx n (fun _ _ => True) hn
      fun _ _ => trivial
    rw [Prog.wp_iff_run, hrun] at hwp
    rw [show r.1 = _ from hwp]
    show n = v
    have hv' := hlong v hv
    rw [hv.announced, Option.getD_some, ofInt32] at heq
    omega

theorem refused_iff : (∀ env s r s', ¬ Announces L name payload →
      (ymodemOnBegin L name ctx).run (world L env) s = .done r s' →
        r.2 = rymCodeCan ∧ s'.flash = s.flash) ↔
    (announced payload = none → ∀ part, falPartitionFind L name = some part → part.dev = .onchip) := by
  have hzero : announced payload = none → n = 0 := by
    intro hnone
    rw [heq, hnone]
    rfl
  constructor
  · intro h hnone part hfind
    by_contra hdev
    have hfit : n ≤ part.len := by
      rw [hzero hnone]
      exact Nat.zero_le _
    obtain ⟨r, s', hrun, hr⟩ := Prog.run_done_of_wp (wp_ymodemOnBegin_fits
      (s := ⟨fun _ _ => 0, 0, []⟩) (Q := fun r _ => r.2 = rymCodeAck) hn hfind hfit
      (fun hcut => absurd calmEnv_calm hcut) (fun _ _ _ => rfl)
      fun hcan => absurd (hcan calmEnv_calm).2 hdev)
    have hannounces : ¬ Announces L name payload := by
      rintro ⟨_, v, -, hv, -⟩
      rw [hnone] at hv
      cases hv
    have hcan := (h calmEnv _ r s' hannounces hrun).1
    rw [hr] at hcan
    exact absurd hcan (by decide)
  · intro hmissing env s r s' hannounces hrun
    by_cases hfits : ∃ part, falPartitionFind L name = some part ∧ n ≤ part.len
    · -- only a missing number fits, and then the driver refuses
      obtain ⟨part, hfind, hfit⟩ := hfits
      have hnone : announced payload = none := by
        cases hv : announced payload with
        | none => rfl
        | some v =>
          rw [hv, Option.getD_some] at heq
          refine absurd ⟨part, v, hfind, hv, ?_⟩ hannounces
          by_contra hout
          have hlt := len_lt_ofInt32 (mem_of_find hfind) (v := v) (by omega)
          omega
      have honchip := hmissing hnone part hfind
      have hwp := @wp_ymodemOnBegin_fits L env s part name ctx n
        (fun r s' => r.2 = rymCodeCan ∧ s'.flash = s.flash) (fun _ _ => True) hn hfind hfit
        (fun _ _ => trivial)
        (fun hnor => absurd ((hnor (hzero hnone)).symm.trans honchip) (by decide))
        fun _ s' hs' => ⟨rfl, hs' (hzero hnone)⟩
      rw [Prog.wp_iff_run, hrun] at hwp
      exact hwp
    · rw [ymodemOnBegin_refused hn fun part hfind =>
        Nat.not_le.1 fun hfit => hfits ⟨part, hfind, hfit⟩] at hrun
      obtain ⟨rfl, rfl⟩ := Outcome.done.inj hrun
      exact ⟨rfl, rfl⟩

end Sized

/-- The first packet is parsed well exactly when name and number end in it, a plain decimal is a
`long`, and a number is there, unless the partition's driver refuses to erase nothing. -/
theorem ymodemOnBegin_parsedInside_iff (hlen : len = 128 ∨ len = 1024) :
    ParsedInside L name ctx len ↔ NameAndNumberEnd (ctx.buf.slice 3 len) ∧
      (∀ v, AnnouncesDecimal (ctx.buf.slice 3 len) v → v < 2147483648) ∧
      (announced (ctx.buf.slice 3 len) = none →
        ∀ part, falPartitionFind L name = some part → part.dev = .onchip) := by
  have hle : len ≤ 1024 := by omega
  constructor
  · rintro ⟨hinside, hsize, hrefused⟩
    have hends := (inside_iff hle).1 hinside
    obtain ⟨n, hn, heq⟩ := fileSize_payload hle hends
    exact ⟨hends, (size_iff hn heq).1 hsize, (refused_iff hn heq).1 hrefused⟩
  · rintro ⟨hends, hlong, hmissing⟩
    obtain ⟨n, hn, heq⟩ := fileSize_payload hle hends
    exact ⟨(inside_iff hle).2 hends, (size_iff hn heq).2 hlong, (refused_iff hn heq).2 hmissing⟩

/-- A receiver that has just read a packet. -/
def receiverWith (b : Block) : RymCtx :=
  { receiverOn [] with buf := (Buffer.fill rymStxPkgSz 0).store 0 b.packet }

set_option maxRecDepth 20000 in
theorem ymodemOnBegin_parsedInside_namedFile :
    ParsedInside falPartTable qbootDownloadPartName (receiverWith namedFile) 128 := by
  have hpayload : (receiverWith namedFile).buf.slice 3 128 =
      [102] ++ 0 :: ([50, 53, 54] ++ 0 :: List.replicate 122 0) := by
    decide +kernel
  have hends : NameAndNumberEnd ([102] ++ 0 :: ([50, 53, 54] ++ 0 :: List.replicate 122 0)) :=
    ⟨_, _, rfl, by decide, [], [], [50, 53, 54], 0, _, rfl, by decide, Or.inl rfl, by decide, by decide,
      fun _ h => by cases h⟩
  have hannounced : announced ([102] ++ 0 :: ([50, 53, 54] ++ 0 :: List.replicate 122 0)) = some 256 := by
    decide +kernel
  refine (ymodemOnBegin_parsedInside_iff (Or.inl rfl)).2 ⟨hpayload ▸ hends, fun v hv => ?_, fun hnone => ?_⟩
  · have hv' := hv.announced
    rw [hpayload, hannounced] at hv'
    have h256 := Option.some.inj hv'
    omega
  · rw [hpayload, hannounced] at hnone
    cases hnone

/-- `f` with no size behind its zero byte. -/
def unsizedFile : Block := ⟨0, [102, 0] ++ List.replicate 126 0⟩

set_option maxRecDepth 20000 in
/-- A packet with no size is intact and is acknowledged. -/
theorem unsizedFile_accepted :
    recvCrc (receiverWith unsizedFile) 133 = crc16 ((receiverWith unsizedFile).buf.slice 3 128) ∧
    announced ((receiverWith unsizedFile).buf.slice 3 128) = none ∧
    ¬ ParsedInside falPartTable qbootDownloadPartName (receiverWith unsizedFile) 128 := by
  have hnone : announced ((receiverWith unsizedFile).buf.slice 3 128) = none := by
    decide +kernel
  refine ⟨by decide +kernel, hnone, fun h => ?_⟩
  have hsize : fileSize ((receiverWith unsizedFile).buf.bytes.drop 3) = some 0 := by
    decide +kernel
  have hfind : falPartitionFind falPartTable qbootDownloadPartName =
      some ⟨qbootDownloadPartName, .nor, 0x600000, 0x100000⟩ := by
    decide
  obtain ⟨r, s', hrun, hr⟩ := Prog.run_done_of_wp (wp_ymodemOnBegin_fits
    (s := ⟨fun _ _ => 0, 0, []⟩) (Q := fun r _ => r.2 = rymCodeAck) hsize hfind (Nat.zero_le _)
    (fun hcut => absurd calmEnv_calm hcut) (fun _ _ _ => rfl)
    fun hcan => absurd (hcan calmEnv_calm).2 (by decide))
  have hannounces : ¬ Announces falPartTable qbootDownloadPartName
      ((receiverWith unsizedFile).buf.slice 3 128) := by
    rintro ⟨_, v, -, hv, -⟩
    rw [hnone] at hv
    cases hv
  have hcan := (h.refused calmEnv _ r s' hannounces hrun).1
  rw [hr] at hcan
  exact absurd hcan (by decide)

end RtThreadOta
