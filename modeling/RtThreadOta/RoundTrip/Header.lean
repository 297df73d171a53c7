import RtThreadOta.Crc.Crc32Bits
import RtThreadOta.RoundTrip.Packed

/-!
# The header from the tool to the device

`btnCreate_Click` marshals `rt_ota_rbl_hdr`, and the bootloader reads the 96 bytes as its `fw_info_t`.
The numbers arrive, and a text arrives when a zero byte of its field is left behind it: the tool copies
texts without a terminator, and the bootloader reads them as C strings.
-/

namespace RtThreadOta

open Words

/-- A text as the tool takes it: not empty, and ASCII without the character that ends a text. -/
structure EntryText where
  bytes : List UInt8
  nonempty : bytes ≠ []
  ascii : ∀ b ∈ bytes, 0 < b ∧ b < 128

/-- `rbl_hdr.sn` of `btnCreate_Click`: `"000102030405060708091011"` with the last four bytes zeroed. -/
def btnCreateSn : List UInt8 :=
  ascii ['0', '0', '0', '1', '0', '2', '0', '3', '0', '4', '0', '5', '0', '6', '0', '7', '0', '8',
    '0', '9'] ++ [0, 0, 0, 0]

/-- The numbers of a header. -/
structure HdrNumbers where
  algo : ℕ
  timestamp : ℕ
  crc32 : ℕ
  hash : ℕ
  sizeRaw : ℕ
  sizePackage : ℕ
  algo_lt : algo < 4294967296
  timestamp_lt : timestamp < 4294967296
  crc32_lt : crc32 < 4294967296
  hash_lt : hash < 4294967296
  sizeRaw_lt : sizeRaw < 4294967296
  sizePackage_lt : sizePackage < 4294967296

/-- `rbl_hdr` as `btnCreate_Click` fills it. -/
def btnCreateHdr (name version : EntryText) (k : HdrNumbers) : RblHdr :=
  ⟨k.algo, k.timestamp, name.bytes, version.bytes, btnCreateSn, k.crc32, k.hash, k.sizeRaw,
    k.sizePackage⟩

/-- `StructToBytes` with the last field. -/
def structToBytes (h : RblHdr) (infoCrc32 : ℕ) : List UInt8 := h.covered ++ encodeLe32 infoCrc32

/-- The 96 bytes `btnCreate_Click` writes; the check sum is taken while `info_crc32` still holds the
one of an earlier package. -/
def btnCreateBytes (h : RblHdr) (oldCrc32 : ℕ) : List UInt8 :=
  structToBytes h (getFileCRC32 ((structToBytes h oldCrc32).take 92)).toNat

/-- The bytes read as `fw_info_t`. -/
def readAsFwInfo (bs : List UInt8) : FwInfo := (Buffer.fill fwInfoSize 0).store 0 bs

/-- What of a header reaches the device. -/
structure HdrArrives (name version : EntryText) (k : HdrNumbers) (info : FwInfo) : Prop where
  algo : info.algo = k.algo % 65536
  algo2 : info.algo2 = k.algo / 65536
  timeStamp : info.timeStamp = k.timestamp
  pkgCrc : info.pkgCrc = k.crc32
  rawCrc : info.rawCrc = k.hash
  rawSize : info.rawSize = k.sizeRaw
  pkgSize : info.pkgSize = k.sizePackage
  check : qbtFwInfoCheck info = true
  partName : info.partName = name.bytes.take 16
  fwVer : info.fwVer = version.bytes.take 24
  select : ∀ L, falPartitionFind L info.partName = falPartitionFind L name.bytes

variable {name version : EntryText} {k : HdrNumbers} {h : RblHdr}

theorem readAsFwInfo_btnCreateBytes (h : RblHdr) (oldCrc32 : ℕ) :
    readAsFwInfo (btnCreateBytes h oldCrc32) = h.info := by
  rw [btnCreateBytes, structToBytes, structToBytes, List.take_left' h.covered_length,
    getFileCRC32_eq]
  rfl

/-! ## Texts in fixed fields -/

theorem EntryText.ne_zero (t : EntryText) {b : UInt8} (hb : b ∈ t.bytes) : decide (b ≠ 0) = true := by
  apply decide_eq_true
  rintro rfl
  exact absurd (t.ascii 0 hb).1 (by decide)

/-- A text that leaves room is the C string of its field. -/
theorem takeWhile_fixedField (t : EntryText) {n : ℕ} (hn : t.bytes.length < n) (rest : List UInt8) :
    (fixedField n t.bytes ++ rest).takeWhile (fun b => decide (b ≠ 0)) = t.bytes := by
  have hzeros : List.replicate (n - t.bytes.length) (0 : UInt8) =
      0 :: List.replicate (n - t.bytes.length - 1) 0 := by
    rw [← List.replicate_succ]
    congr 1
    omega
  rw [fixedField, List.take_of_length_le (by omega), hzeros, List.append_assoc,
    List.takeWhile_append_of_pos fun b hb => t.ne_zero hb]
  simp

/-- A text that fills its field runs on into the next one. -/
theorem takeWhile_fixedField_full (t : EntryText) {n : ℕ} (hn : n ≤ t.bytes.length) (b : UInt8)
    (hb : b ≠ 0) (rest : List UInt8) :
    (fixedField n t.bytes ++ b :: rest).takeWhile (fun b => decide (b ≠ 0)) ≠ t.bytes.take n := by
  intro heq
  have hcons : (b :: rest).takeWhile (fun b => decide (b ≠ 0)) =
      b :: rest.takeWhile fun b => decide (b ≠ 0) := List.takeWhile_cons_of_pos (decide_eq_true hb)
  have hlen := congrArg List.length heq
  rw [fixedField, Nat.sub_eq_zero_of_le hn, List.replicate_zero, List.append_nil,
    List.takeWhile_append_of_pos fun b hb => t.ne_zero (List.mem_of_mem_take hb), hcons,
    List.length_append, List.length_cons] at hlen
  omega

/-! ## The texts of the header -/

theorem partName_eq (h : RblHdr) : ∃ rest, h.info.partName =
    (fixedField 16 h.name ++ (fixedField 24 h.version ++ rest)).takeWhile
      fun b => decide (b ≠ 0) := by
  refine ⟨fixedField 24 h.sn ++ encodeLe32 h.crc32 ++ encodeLe32 h.hash ++ encodeLe32 h.sizeRaw ++
    encodeLe32 h.sizePackage ++ encodeLe32 (crc32Cal h.covered).toNat, ?_⟩
  have hb : h.bytes = ([82, 66, 76, 0] ++ encodeLe32 h.algo ++ encodeLe32 h.timestamp) ++
      (fixedField 16 h.name ++ (fixedField 24 h.version ++ (fixedField 24 h.sn ++
        encodeLe32 h.crc32 ++ encodeLe32 h.hash ++ encodeLe32 h.sizeRaw ++
        encodeLe32 h.sizePackage ++ encodeLe32 (crc32Cal h.covered).toNat))) := by
    simp only [RblHdr.bytes, RblHdr.covered, List.append_assoc]
  rw [FwInfo.partName, FwInfo.cString, RblHdr.info_bytes, hb, List.drop_left' (by simp)]

theorem fwVer_eq (h : RblHdr) : ∃ rest, h.info.fwVer =
    (fixedField 24 h.version ++ (fixedField 24 h.sn ++ rest)).takeWhile
      fun b => decide (b ≠ 0) := by
  refine ⟨encodeLe32 h.crc32 ++ encodeLe32 h.hash ++ encodeLe32 h.sizeRaw ++
    encodeLe32 h.sizePackage ++ encodeLe32 (crc32Cal h.covered).toNat, ?_⟩
  have hb : h.bytes = ([82, 66, 76, 0] ++ encodeLe32 h.algo ++ encodeLe32 h.timestamp ++
      fixedField 16 h.name) ++ (fixedField 24 h.version ++ (fixedField 24 h.sn ++
        (encodeLe32 h.crc32 ++ encodeLe32 h.hash ++ encodeLe32 h.sizeRaw ++
        encodeLe32 h.sizePackage ++ encodeLe32 (crc32Cal h.covered).toNat))) := by
    simp only [RblHdr.bytes, RblHdr.covered, List.append_assoc]
  rw [FwInfo.fwVer, FwInfo.cString, RblHdr.info_bytes, hb, List.drop_left' (by simp)]

/-- The partition name arrives exactly when its field keeps a terminator. -/
theorem partName_arrives_iff : (btnCreateHdr name version k).info.partName = name.bytes.take 16 ↔
    name.bytes.length < 16 := by
  obtain ⟨rest, heq⟩ := partName_eq (btnCreateHdr name version k)
  obtain ⟨v, vs, hv⟩ := List.exists_cons_of_ne_nil version.nonempty
  have hzero : v ≠ 0 := by
    have := version.ne_zero (b := v) (by rw [hv]; exact List.mem_cons_self)
    exact of_decide_eq_true this
  have hver : fixedField 24 (btnCreateHdr name version k).version =
      v :: (fixedField 24 (v :: vs)).tail := by
    rw [← hv]
    show fixedField 24 version.bytes = _
    rw [hv]
    rfl
  rw [heq, hver]
  show (fixedField 16 name.bytes ++ _).takeWhile _ = _ ↔ _
  rcases Nat.lt_or_ge name.bytes.length 16 with hlt | hge
  · rw [takeWhile_fixedField name hlt, List.take_of_length_le (by omega)]
    exact iff_of_true rfl hlt
  · exact iff_of_false (takeWhile_fixedField_full name hge v hzero _) (by omega)

/-- The version arrives exactly when its field keeps a terminator. -/
theorem fwVer_arrives_iff : (btnCreateHdr name version k).info.fwVer = version.bytes.take 24 ↔
    version.bytes.length < 24 := by
  obtain ⟨rest, heq⟩ := fwVer_eq (btnCreateHdr name version k)
  rw [heq]
  show (fixedField 24 version.bytes ++ (fixedField 24 btnCreateSn ++ rest)).takeWhile _ = _ ↔ _
  rcases Nat.lt_or_ge version.bytes.length 24 with hlt | hge
  · rw [takeWhile_fixedField version hlt, List.take_of_length_le (by omega)]
    exact iff_of_true rfl hlt
  · -- behind a full field the serial number begins, with `'0'`
    exact iff_of_false (takeWhile_fixedField_full version hge 48 (by decide) _) (by omega)

/-- The header arrives exactly when both texts leave room for a terminator. -/
theorem hdrArrives_iff (name version : EntryText) (k : HdrNumbers) (oldCrc32 : ℕ) :
    HdrArrives name version k
        (readAsFwInfo (btnCreateBytes (btnCreateHdr name version k) oldCrc32)) ↔
      name.bytes.length < 16 ∧ version.bytes.length < 24 := by
  rw [readAsFwInfo_btnCreateBytes]
  constructor
  · intro h
    exact ⟨partName_arrives_iff.1 h.partName, fwVer_arrives_iff.1 h.fwVer⟩
  · rintro ⟨hname, hversion⟩
    have hpart : (btnCreateHdr name version k).info.partName = name.bytes.take 16 :=
      partName_arrives_iff.2 hname
    refine ⟨RblHdr.info_algo, RblHdr.info_algo2 k.algo_lt, RblHdr.info_timeStamp k.timestamp_lt,
      RblHdr.info_pkgCrc k.crc32_lt, RblHdr.info_rawCrc k.hash_lt, RblHdr.info_rawSize k.sizeRaw_lt,
      RblHdr.info_pkgSize k.sizePackage_lt, RblHdr.infoCheck _, hpart,
      fwVer_arrives_iff.2 hversion, fun L => ?_⟩
    rw [hpart, List.take_of_length_le (by omega)]

/-- A name of sixteen characters. -/
def fullName : EntryText := ⟨List.replicate 16 97, by decide, fun b hb => by
  rw [List.eq_of_mem_replicate hb]
  decide⟩

/-- The version `"1"`. -/
def shortVersion : EntryText := ⟨[49], by decide, fun b hb => by
  rw [List.mem_singleton.1 hb]
  decide⟩

/-- A name that fills its field runs on into the version. -/
theorem fullName_runsOn : ¬ HdrArrives fullName shortVersion ⟨0, 0, 0, 0, 0, 0, by decide, by decide,
    by decide, by decide, by decide, by decide⟩ (readAsFwInfo (btnCreateBytes (btnCreateHdr fullName
      shortVersion ⟨0, 0, 0, 0, 0, 0, by decide, by decide, by decide, by decide, by decide,
        by decide⟩) 0)) := by
  rw [readAsFwInfo_btnCreateBytes]
  intro h
  exact absurd (partName_arrives_iff.1 h.partName) (by decide)

end RtThreadOta
