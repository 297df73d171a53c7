import Mathlib.Logic.Function.Iterate
import RtThreadOta.Crc.Crc32
import RtThreadOta.Library.Lfsr
import RtThreadOta.Library.Words

/-!
# One CRC-32 (`crc32.c`, `fileToCRC32.cs`)

The bootloader and the packaging tool each carry a table of their own. Here are the tool's function
and the division bit by bit that both tables abbreviate, and that all three are the same. The
register over a message is the one of `Lfsr.feedBits` over its bits, which the polynomial lets us
run backwards: `crc32CycCal_inj` finds at most four bytes from the register behind them.
-/

namespace RtThreadOta

open Lfsr Words

/-- `CRC32_POLY` -/
def crc32Poly : UInt32 := 0xEDB88320

/-- One round of the inner loop of `crc32_table_init`. -/
def crc32Shift (c : UInt32) : UInt32 :=
  if c &&& 0x00000001 ≠ 0 then crc32Poly ^^^ (c >>> 1) else c >>> 1

/-- The division bit by bit: each byte is mixed into the low end, and eight bits are shifted out. -/
def crc32Bitwise (data : List UInt8) : UInt32 :=
  data.foldl (fun c b => crc32Shift^[8] (c ^^^ b.toUInt32)) 0xFFFFFFFF ^^^ 0xFFFFFFFF

/-- `Crc32Table` of the tool -/
def fileCrc32Table : Array UInt32 := #[
    0, 1996959894, 3993919788, 2567524794, 124634137, 1886057615, 3915621685, 2657392035, 249268274,
    2044508324, 3772115230, 2547177864, 162941995, 2125561021, 3887607047, 2428444049, 498536548,
    1789927666, 4089016648, 2227061214, 450548861, 1843258603, 4107580753, 2211677639, 325883990,
    1684777152, 4251122042, 2321926636, 335633487, 1661365465, 4195302755, 2366115317, 997073096,
    1281953886, 3579855332, 2724688242, 1006888145, 1258607687, 3524101629, 2768942443, 901097722,
    1119000684, 3686517206, 2898065728, 853044451, 1172266101, 3705015759, 2882616665, 651767980,
    1373503546, 3369554304, 3218104598, 565507253, 1454621731, 3485111705, 3099436303, 671266974,
    1594198024, 3322730930, 2970347812, 795835527, 1483230225, 3244367275, 3060149565, 1994146192,
    31158534, 2563907772, 4023717930, 1907459465, 112637215, 2680153253, 3904427059, 2013776290,
    251722036, 2517215374, 3775830040, 2137656763, 141376813, 2439277719, 3865271297, 1802195444,
    476864866, 2238001368, 4066508878, 1812370925, 453092731, 2181625025, 4111451223, 1706088902,
    314042704, 2344532202, 4240017532, 1658658271, 366619977, 2362670323, 4224994405, 1303535960,
    984961486, 2747007092, 3569037538, 1256170817, 1037604311, 2765210733, 3554079995, 1131014506,
    879679996, 2909243462, 3663771856, 1141124467, 855842277, 2852801631, 3708648649, 1342533948,
    654459306, 3188396048, 3373015174, 1466479909, 544179635, 3110523913, 3462522015, 1591671054,
    702138776, 2966460450, 3352799412, 1504918807, 783551873, 3082640443, 3233442989, 3988292384,
    2596254646, 62317068, 1957810842, 3939845945, 2647816111, 81470997, 1943803523, 3814918930,
    2489596804, 225274430, 2053790376, 3826175755, 2466906013, 167816743, 2097651377, 4027552580,
    2265490386, 503444072, 1762050814, 4150417245, 2154129355, 426522225, 1852507879, 4275313526,
    2312317920, 282753626, 1742555852, 4189708143, 2394877945, 397917763, 1622183637, 3604390888,
    2714866558, 953729732, 1340076626, 3518719985, 2797360999, 1068828381, 1219638859, 3624741850,
    2936675148, 906185462, 1090812512, 3747672003, 2825379669, 829329135, 1181335161, 3412177804,
    3160834842, 628085408, 1382605366, 3423369109, 3138078467, 570562233, 1426400815, 3317316542,
    2998733608, 733239954, 1555261956, 3268935591, 3050360625, 752459403, 1541320221, 2607071920,
    3965973030, 1969922972, 40735498, 2617837225, 3943577151, 1913087877, 83908371, 2512341634,
    3803740692, 2075208622, 213261112, 2463272603, 3855990285, 2094854071, 198958881, 2262029012,
    4057260610, 1759359992, 534414190, 2176718541, 4139329115, 1873836001, 414664567, 2282248934,
    4279200368, 1711684554, 285281116, 2405801727, 4167216745, 1634467795, 376229701, 2685067896,
    3608007406, 1308918612, 956543938, 2808555105, 3495958263, 1231636301, 1047427035, 2932959818,
    3654703836, 1088359270, 936918000, 2847714899, 3736837829, 1202900863, 817233897, 3183342108,
    3401237130, 1404277552, 615818150, 3134207493, 3453421203, 1423857449, 601450431, 3009837614,
    3294710456, 1567103746, 711928724, 3020668471, 3272380065, 1510334235, 755167117]

/-- `GetFileCRC32` -/
def getFileCRC32 (bin : List UInt8) : UInt32 :=
  bin.foldl (fun (num : UInt32) b =>
      fileCrc32Table.getD ((num ^^^ b.toUInt32) &&& 0xFF).toNat 0 ^^^ (num >>> 8))
    (0 ^^^ 0xFFFFFFFF) ^^^ 0xFFFFFFFF

/-! ## The tables -/

theorem fileCrc32Table_eq : fileCrc32Table = crc32Table := rfl

theorem crc32Table_toList :
    crc32Table.toList = (List.range 256).map fun i => crc32Shift^[8] (UInt32.ofNat i) := by
  decide +kernel

/-- An entry of the table is eight shifts of its index, as `crc32_table_init` makes it. -/
theorem crc32Table_getD {i : ℕ} (h : i < 256) :
    crc32Table.getD i 0 = crc32Shift^[8] (UInt32.ofNat i) := by
  rw [Array.getD_eq_getD_getElem?, ← Array.getElem?_toList, crc32Table_toList, List.getElem?_map,
    List.getElem?_range h]
  rfl

/-! ## Registers as shift registers -/

theorem crc32Shift_toBitVec (c : UInt32) :
    (crc32Shift c).toBitVec = step crc32Poly.toBitVec c.toBitVec := by
  have hlow : c &&& 1 ≠ 0 ↔ c.toBitVec.getLsbD 0 = true := by
    have hbit : (c &&& 1).toBitVec = (BitVec.ofBool (c.toBitVec.getLsbD 0)).setWidth 32 :=
      BitVec.and_one_eq_setWidth_ofBool_getLsbD
    rw [Ne, ← UInt32.toBitVec_inj, hbit]
    cases c.toBitVec.getLsbD 0 <;> decide
  unfold crc32Shift step
  simp only [hlow]
  split
  · rw [UInt32.toBitVec_xor, BitVec.xor_comm]
    rfl
  · rfl

theorem crc32Shift_iterate_toBitVec (n : ℕ) (c : UInt32) :
    (crc32Shift^[n] c).toBitVec = steps crc32Poly.toBitVec n c.toBitVec := by
  induction n generalizing c with
  | zero => rfl
  | succ n ih => rw [Function.iterate_succ_apply, ih, crc32Shift_toBitVec, steps]

/-- The bits of a byte, the lowest first. -/
def byteBits (b : UInt8) : List Bool := lowBits 8 b.toBitVec

/-- Mixing a byte in and shifting eight times feeds its bits. -/
theorem steps_byte (c : BitVec 32) (b : UInt8) :
    steps crc32Poly.toBitVec 8 (c ^^^ b.toBitVec.setWidth 32) =
      feedBits crc32Poly.toBitVec c (byteBits b) := by
  have hzero : b.toBitVec.setWidth 32 >>> 8 = 0#32 := by
    apply BitVec.eq_of_getLsbD_eq
    intro i _
    simp
  have hbits : lowBits 8 (b.toBitVec.setWidth 32) = byteBits b := by
    refine List.map_congr_left fun i hi => ?_
    have hi := List.mem_range.1 hi
    rw [BitVec.getLsbD_setWidth, decide_eq_true (by omega), Bool.true_and]
  rw [steps_xor, hzero, BitVec.xor_zero, hbits]

/-- One byte through the table. -/
theorem crc32Step_toBitVec (c : UInt32) (b : UInt8) :
    (crc32Step c b).toBitVec = feedBits crc32Poly.toBitVec c.toBitVec (byteBits b) := by
  -- the low byte of the mixed register is the index, the rest only moves down
  have hidx : (c.toUInt8 ^^^ b).toNat < 256 := UInt8.toNat_lt _
  have hindex : (UInt32.ofNat (c.toUInt8 ^^^ b).toNat).toBitVec =
      (c.toBitVec.setWidth 8 ^^^ b.toBitVec).setWidth 32 := by
    show BitVec.ofNat 32 (c.toUInt8 ^^^ b).toBitVec.toNat = _
    rw [BitVec.ofNat_toNat]
    rfl
  have hsplit : c.toBitVec ^^^ b.toBitVec.setWidth 32 =
      (UInt32.ofNat (c.toUInt8 ^^^ b).toNat).toBitVec ^^^ c.toBitVec >>> 8 <<< 8 := by
    apply BitVec.eq_of_getLsbD_eq
    intro i hi
    rw [hindex, BitVec.getLsbD_xor, BitVec.getLsbD_xor, BitVec.getLsbD_setWidth,
      BitVec.getLsbD_setWidth, BitVec.getLsbD_xor, BitVec.getLsbD_setWidth, BitVec.getLsbD_shiftLeft,
      BitVec.getLsbD_ushiftRight, decide_eq_true hi]
    rcases Nat.lt_or_ge i 8 with hlt | hge
    · simp [hlt]
    · have h8 : 8 + (i - 8) = i := by omega
      simp [Nat.not_lt.2 hge, h8, BitVec.getLsbD_of_ge b.toBitVec i hge]
  have hlow : ∀ i < 8, (c.toBitVec >>> 8 <<< 8).getLsbD i = false := by
    intro i hi
    simp [hi]
  have hhigh : c.toBitVec >>> 8 <<< 8 >>> 8 = c.toBitVec >>> 8 := by
    apply BitVec.eq_of_getLsbD_eq
    intro i hi
    simp only [BitVec.getLsbD_ushiftRight, BitVec.getLsbD_shiftLeft, Nat.add_sub_cancel_left]
    rcases Nat.lt_or_ge (8 + i) 32 with hlt | hge
    · simp [hlt]
    · simp [BitVec.getLsbD_of_ge c.toBitVec (8 + i) hge]
  rw [← steps_byte, hsplit, steps_split hlow, hhigh, crc32Step, crc32Table_getD hidx,
    UInt32.toBitVec_xor, crc32Shift_iterate_toBitVec, BitVec.xor_comm]
  rfl

/-- A register over a message is the division of its bits. -/
theorem crc32CycCal_toBitVec (c : UInt32) (data : List UInt8) :
    (crc32CycCal c data).toBitVec =
      feedBits crc32Poly.toBitVec c.toBitVec (data.flatMap byteBits) := by
  induction data generalizing c with
  | nil => rfl
  | cons b data ih =>
    rw [List.flatMap_cons, feedBits_append, ← crc32Step_toBitVec, ← ih]
    rfl

/-! ## One function -/

/-- The index both table loops look up. -/
theorem fileCrc32_index (num : UInt32) (b : UInt8) :
    ((num ^^^ b.toUInt32) &&& 0xFF).toNat = (num.toUInt8 ^^^ b).toNat := by
  have hb : b.toNat < 2 ^ 8 := UInt8.toNat_lt _
  have h255 : (0xFF : UInt32).toNat = 2 ^ 8 - 1 := rfl
  rw [UInt32.toNat_and, h255, Nat.and_two_pow_sub_one_eq_mod, UInt32.toNat_xor,
    UInt8.toNat_toUInt32, UInt8.toNat_xor, UInt32.toNat_toUInt8, Nat.xor_mod_two_pow,
    Nat.mod_eq_of_lt hb]

theorem getFileCRC32_eq (bin : List UInt8) : getFileCRC32 bin = crc32Cal bin := by
  have hstep : (fun (num : UInt32) (b : UInt8) =>
      fileCrc32Table.getD ((num ^^^ b.toUInt32) &&& 0xFF).toNat 0 ^^^ (num >>> 8)) = crc32Step := by
    funext num b
    rw [fileCrc32_index, fileCrc32Table_eq, UInt32.xor_comm]
    rfl
  rw [getFileCRC32, hstep]
  rfl

theorem crc32Bitwise_eq (data : List UInt8) : crc32Bitwise data = crc32Cal data := by
  have hstep : (fun (c : UInt32) (b : UInt8) => crc32Shift^[8] (c ^^^ b.toUInt32)) = crc32Step := by
    funext c b
    rw [← UInt32.toBitVec_inj, crc32Shift_iterate_toBitVec, crc32Step_toBitVec, ← steps_byte]
    rfl
  rw [crc32Bitwise, hstep]
  rfl

/-! ## Running the register backwards -/

theorem crc32Poly_msb : crc32Poly.toBitVec.msb = true := by decide

theorem byteBits_length (data : List UInt8) : (data.flatMap byteBits).length = 8 * data.length := by
  induction data with
  | nil => rfl
  | cons b data ih =>
    rw [List.flatMap_cons, List.length_append, ih, byteBits, lowBits_length, List.length_cons]
    omega

theorem byteBits_inj {as bs : List UInt8} (hlen : as.length = bs.length)
    (h : as.flatMap byteBits = bs.flatMap byteBits) : as = bs := by
  induction as generalizing bs with
  | nil => exact (List.eq_nil_of_length_eq_zero hlen.symm).symm
  | cons a as ih =>
    obtain ⟨b, bs, rfl⟩ := List.exists_cons_of_length_eq_add_one hlen.symm
    rw [List.flatMap_cons, List.flatMap_cons] at h
    obtain ⟨hhead, htail⟩ := List.append_inj h (by rw [byteBits, byteBits, lowBits_length,
      lowBits_length])
    rw [UInt8.toBitVec_inj.1 (lowBits_inj hhead), ih (Nat.succ.inj hlen) htail]

/-- A register behind at most four bytes tells them. -/
theorem crc32CycCal_inj {c : UInt32} {as bs : List UInt8} (hlen : as.length = bs.length)
    (hfour : as.length ≤ 4) (h : crc32CycCal c as = crc32CycCal c bs) : as = bs := by
  have hbits := congrArg UInt32.toBitVec h
  rw [crc32CycCal_toBitVec, crc32CycCal_toBitVec] at hbits
  have hle : (as.flatMap byteBits).length ≤ 32 := by
    rw [byteBits_length]
    omega
  refine byteBits_inj hlen (feedBits_inj (c := c.toBitVec) crc32Poly_msb ?_ hle ?_)
  · rw [byteBits_length, byteBits_length, hlen]
  · exact (agreeTop_all.2 hbits).mono hle

/-- A difference between registers stays. -/
theorem crc32CycCal_left_inj {c c' : UInt32} {data : List UInt8}
    (h : crc32CycCal c data = crc32CycCal c' data) : c = c' := by
  have hbits := congrArg UInt32.toBitVec h
  rw [crc32CycCal_toBitVec, crc32CycCal_toBitVec] at hbits
  exact UInt32.toBitVec_inj.1 (feedBits_left_inj crc32Poly_msb (by decide) hbits)

/-- Messages that differ within four bytes have different registers. -/
theorem crc32CycCal_burst {c : UInt32} {pre as bs post : List UInt8}
    (hlen : as.length = bs.length) (hfour : as.length ≤ 4)
    (h : crc32CycCal c (pre ++ as ++ post) = crc32CycCal c (pre ++ bs ++ post)) : as = bs := by
  rw [crc32CycCal_append, crc32CycCal_append, crc32CycCal_append c (pre ++ bs),
    crc32CycCal_append c pre] at h
  exact crc32CycCal_inj hlen hfour (crc32CycCal_left_inj h)

/-! ## The stored check sum as part of the message -/

theorem byteBits_le32 (a b c d : UInt8) :
    [a, b, c, d].flatMap byteBits = lowBits 32 (BitVec.ofNat 32 (le32 [a, b, c, d] 0)) := by
  have hword : BitVec.ofNat 32 (le32 [a, b, c, d] 0) =
      d.toBitVec ++ (c.toBitVec ++ (b.toBitVec ++ a.toBitVec)) := by
    apply BitVec.eq_of_toNat_eq
    have ha : a.toNat < 2 ^ 8 := UInt8.toNat_lt a
    have hb : b.toNat < 2 ^ 8 := UInt8.toNat_lt b
    have hc : c.toNat < 2 ^ 8 := UInt8.toNat_lt c
    have hd : d.toNat < 2 ^ 8 := UInt8.toNat_lt d
    have hba : (b.toBitVec ++ a.toBitVec).toNat = b.toNat * 2 ^ 8 + a.toNat := by
      rw [BitVec.toNat_append, ← Nat.shiftLeft_add_eq_or_of_lt a.toBitVec.isLt, Nat.shiftLeft_eq]
      rfl
    have hcba : (c.toBitVec ++ (b.toBitVec ++ a.toBitVec)).toNat =
        c.toNat * 2 ^ 16 + (b.toNat * 2 ^ 8 + a.toNat) := by
      rw [BitVec.toNat_append, ← Nat.shiftLeft_add_eq_or_of_lt (BitVec.isLt _), Nat.shiftLeft_eq, hba]
      rfl
    rw [BitVec.toNat_append, ← Nat.shiftLeft_add_eq_or_of_lt (BitVec.isLt _), Nat.shiftLeft_eq, hcba,
      BitVec.toNat_ofNat, UInt8.toNat_toBitVec]
    simp only [le32, byteAt, List.getD_cons_zero, List.getD_cons_succ, Nat.zero_add]
    omega
  have h₂ : lowBits 16 (b.toBitVec ++ a.toBitVec) = lowBits 8 a.toBitVec ++ lowBits 8 b.toBitVec :=
    lowBits_concat b.toBitVec a.toBitVec
  have h₃ : lowBits 24 (c.toBitVec ++ (b.toBitVec ++ a.toBitVec)) =
      lowBits 16 (b.toBitVec ++ a.toBitVec) ++ lowBits 8 c.toBitVec :=
    lowBits_concat c.toBitVec (b.toBitVec ++ a.toBitVec)
  have h₄ : lowBits 32 (d.toBitVec ++ (c.toBitVec ++ (b.toBitVec ++ a.toBitVec))) =
      lowBits 24 (c.toBitVec ++ (b.toBitVec ++ a.toBitVec)) ++ lowBits 8 d.toBitVec :=
    lowBits_concat d.toBitVec (c.toBitVec ++ (b.toBitVec ++ a.toBitVec))
  rw [hword, h₄, h₃, h₂]
  simp only [List.flatMap_cons, List.flatMap_nil, List.append_nil, List.append_assoc, byteBits]

/-- What the register is behind any message and its check sum. -/
def crc32Residue : UInt32 := 0xDEBB20E3

/-- Behind a message and its stored check sum the register has forgotten the message. -/
theorem crc32CycCal_residue {data field : List UInt8} (hfield : field.length = 4)
    (h : (crc32Cal data).toNat = le32 field 0) :
    crc32CycCal crc32InitVal (data ++ field) = crc32Residue := by
  match field, hfield with
  | [a, b, c, d], _ =>
    have hx : BitVec.ofNat 32 (le32 [a, b, c, d] 0) =
        (crc32CycCal crc32InitVal data).toBitVec ^^^ BitVec.allOnes 32 := by
      rw [← h, ← UInt32.toNat_toBitVec, BitVec.ofNat_toNat, BitVec.setWidth_eq, crc32Cal,
        UInt32.toBitVec_xor]
      rfl
    have hsteps := @steps_xor 32 crc32Poly.toBitVec (crc32CycCal crc32InitVal data).toBitVec
      (BitVec.ofNat 32 (le32 [a, b, c, d] 0)) 32
    rw [← byteBits_le32, BitVec.ushiftRight_eq_zero (Nat.le_refl _), BitVec.xor_zero, hx,
      ← BitVec.xor_assoc, BitVec.xor_self, BitVec.zero_xor] at hsteps
    rw [crc32CycCal_append, ← UInt32.toBitVec_inj, crc32CycCal_toBitVec, ← hsteps]
    decide +kernel

end RtThreadOta
