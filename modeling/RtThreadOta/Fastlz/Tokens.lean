import RtThreadOta.Fastlz.Compress

/-!
# FastLZ blocks as LZ77 tokens

`encodeToken` is how the compressor writes a token. On such bytes the decompressor takes one token in
each iteration (`step_encodeToken`), and so a whole list of them (`loop_tokens`).
-/

namespace RtThreadOta

namespace Fastlz

open Lz77 (Token Spells segment)

variable {level : Level} {mem : ℕ → UInt8} {p q maxout length : ℕ}

/-! ## Tokens as bytes -/

/-- A token as the compressor writes it. -/
def encodeToken (level : Level) : Token UInt8 → List UInt8
  | .lit symbols => UInt8.ofNat (symbols.length - 1) :: symbols
  | .copy len dist =>
    match level with
    | .one => encodeShort (len - 2) (dist - 1)
    | .two => encodeMatch2 (dist - 1) (len - 2)

/-- What the bytes have room for. -/
def Fits (level : Level) : Token UInt8 → Prop
  | .lit symbols => 0 < symbols.length ∧ symbols.length ≤ maxCopy
  | .copy len dist => 3 ≤ len ∧ 0 < dist ∧ dist < level.reach ∧ (level = .one → len ≤ maxLen)

theorem and_31 (n : ℕ) : n &&& 31 = n % 32 := Nat.and_two_pow_sub_one_eq_mod n 5

private theorem and_255 (n : ℕ) : n &&& 255 = n % 256 := Nat.and_two_pow_sub_one_eq_mod n 8

theorem shiftRight_5 (n : ℕ) : n >>> 5 = n / 32 := Nat.shiftRight_eq_div_pow n 5

private theorem shiftRight_8 (n : ℕ) : n >>> 8 = n / 256 := Nat.shiftRight_eq_div_pow n 8

private theorem shiftLeft_5 (n : ℕ) : n <<< 5 = n * 32 := Nat.shiftLeft_eq n 5

private theorem shiftLeft_8 (n : ℕ) : n <<< 8 = n * 256 := Nat.shiftLeft_eq n 8

private theorem toNat_ofNat {n : ℕ} (h : n < 256) : (UInt8.ofNat n).toNat = n := by
  rw [UInt8.toNat_ofNat', Nat.mod_eq_of_lt h]

/-- The length codes add up. -/
theorem addCodes_lengthCodes {fuel n : ℕ} (h : n < 255 * (fuel + 1)) (len : ℕ)
    (rest : List UInt8) : addCodes len (lengthCodes fuel n ++ rest) = some (len + n, rest) := by
  have hlast : ∀ len n, n < 255 →
      addCodes len ([UInt8.ofNat n] ++ rest) = some (len + n, rest) := by
    intro len n hn
    have hne : UInt8.ofNat n ≠ 255 := by
      intro heq
      have hnat := congrArg UInt8.toNat heq
      rw [toNat_ofNat (by omega)] at hnat
      exact absurd hnat (Nat.ne_of_lt hn)
    rw [List.singleton_append, addCodes, if_neg hne, toNat_ofNat (by omega)]
  induction fuel generalizing len n with
  | zero => exact hlast len n (by omega)
  | succ fuel ih =>
    rw [lengthCodes]
    by_cases hlong : 255 ≤ n
    · have hsum : len + 255 + (n - 255) = len + n := by omega
      rw [if_pos hlong, List.cons_append, addCodes, if_pos rfl, ih (by omega), hsum]
    · rw [if_neg hlong]
      exact hlast len n (by omega)

/-- A control byte keeps the length and the high part of the distance apart. -/
private theorem ctrl_parts (n hi : ℕ) (hhi : hi < 32) (hn : n < 8) :
    (UInt8.ofNat (n * 32 + hi)).toNat >>> 5 = n ∧ (UInt8.ofNat (n * 32 + hi)).toNat &&& 31 = hi := by
  rw [toNat_ofNat (by omega), shiftRight_5, and_31]
  omega

/-- A match is read back when its length and its distance are. -/
private theorem matchToken_of_parts {c : UInt8} {n hi len ofs : ℕ} {rest rest₁ rest₂ : List UInt8}
    (hparts : c.toNat >>> 5 = n ∧ c.toNat &&& 31 = hi) (hn : 0 < n)
    (hlen : matchLen level (n - 1) rest = some (len, rest₁))
    (hofs : matchOfs level (hi * 256) rest₁ = some (ofs, rest₂)) :
    32 ≤ c.toNat ∧ matchToken level c.toNat rest = some (len, ofs, rest₂) := by
  obtain ⟨hhead, hhi⟩ := hparts
  constructor
  · rw [shiftRight_5] at hhead
    omega
  · simp only [matchToken, hhead, hhi, shiftLeft_8, hlen, hofs, Option.bind_eq_bind,
      Option.bind_some, Option.pure_def]

/-- A short length lies in the control byte. -/
private theorem matchLen_short (level : Level) {len : ℕ} (hlen : 0 < len) (hshort : len < 7)
    (rest : List UInt8) : matchLen level (len - 1) rest = some (len - 1, rest) := by
  unfold matchLen
  rw [if_neg (by omega)]

/-- A long length of level one lies in the byte behind. -/
private theorem matchLen_one {len : ℕ} (hlong : 7 ≤ len) (hmax : len ≤ 262) (rest : List UInt8) :
    matchLen .one (7 - 1) (UInt8.ofNat (len - 7) :: rest) = some (len - 1, rest) := by
  have hsum : 7 - 1 + (len - 7) = len - 1 := by omega
  unfold matchLen
  rw [if_pos rfl]
  show addCode (7 - 1) _ = _
  rw [addCode, toNat_ofNat (by omega), hsum]

/-- A long length of level two lies in the codes behind. -/
private theorem matchLen_two {len : ℕ} (hlong : 7 ≤ len) (rest : List UInt8) :
    matchLen .two (7 - 1) (lengthCodes len (len - 7) ++ rest) = some (len - 1, rest) := by
  have hsum : 7 - 1 + (len - 7) = len - 1 := by omega
  unfold matchLen
  rw [if_pos rfl]
  show addCodes (7 - 1) _ = _
  rw [addCodes_lengthCodes (by omega), hsum]

/-- A near distance is read back, at both levels. -/
private theorem matchOfs_near {distance : ℕ} (hdist : distance < level.maxDistance)
    (rest : List UInt8) : matchOfs level ((distance / 256) * 256)
      (UInt8.ofNat (distance &&& 255) :: rest) = some (distance, rest) := by
  have hlow : (UInt8.ofNat (distance &&& 255)).toNat = distance % 256 := by
    rw [and_255, toNat_ofNat (Nat.mod_lt _ (by omega))]
  have hnear : ¬ (level = .two ∧ UInt8.ofNat (distance &&& 255) = 255 ∧
      distance / 256 * 256 = 31 <<< 8) := by
    rintro ⟨rfl, hcode, hofs⟩
    -- the code for a far match would be the distance 8191
    have hnat := congrArg UInt8.toNat hcode
    rw [hlow, show (255 : UInt8).toNat = 255 from rfl] at hnat
    rw [shiftLeft_8] at hofs
    have h8191 : distance < 8191 := hdist
    omega
  rw [matchOfs, if_neg hnear, hlow, Nat.div_add_mod' distance 256]

/-- A far distance is read back. -/
private theorem matchOfs_far {distance : ℕ} (hnear : Level.two.maxDistance ≤ distance)
    (hfar : distance < 65536 + Level.two.maxDistance) (rest : List UInt8) :
    matchOfs .two (31 * 256) (255 :: UInt8.ofNat ((distance - Level.two.maxDistance) >>> 8) ::
      UInt8.ofNat ((distance - Level.two.maxDistance) &&& 255) :: rest) = some (distance, rest) := by
  generalize hn : distance - Level.two.maxDistance = n
  have hsum : n / 256 * 256 + n % 256 + Level.two.maxDistance = distance := by
    rw [Nat.div_add_mod' n 256]
    omega
  have hcond : Level.two = .two ∧ (255 : UInt8) = 255 ∧ 31 * 256 = 31 <<< 8 := ⟨rfl, rfl, rfl⟩
  rw [matchOfs, if_pos hcond, farOfs, shiftRight_8, and_255, toNat_ofNat (by omega),
    toNat_ofNat (Nat.mod_lt _ (by omega)), shiftLeft_8, hsum]

/-- A match of level one is read back. -/
theorem matchToken_encodeShort {len distance : ℕ} {c : UInt8} {bytes : List UInt8}
    (hlen : 0 < len) (hmax : len ≤ 262) (hdist : distance < Level.one.maxDistance)
    (henc : encodeShort len distance = c :: bytes) (rest : List UInt8) :
    32 ≤ c.toNat ∧ matchToken .one c.toNat (bytes ++ rest) = some (len - 1, distance, rest) := by
  have h8192 : distance < 8192 := hdist
  unfold encodeShort at henc
  rw [shiftLeft_5, shiftLeft_5, shiftRight_8] at henc
  split at henc
  · rename_i hshort
    obtain ⟨rfl, rfl⟩ := List.cons.inj henc
    exact matchToken_of_parts (ctrl_parts len _ (by omega) (by omega)) hlen
      (matchLen_short .one hlen hshort _) (matchOfs_near hdist rest)
  · rename_i hlong
    obtain ⟨rfl, rfl⟩ := List.cons.inj henc
    exact matchToken_of_parts (ctrl_parts 7 _ (by omega) (by omega)) (by omega)
      (matchLen_one (by omega) hmax _) (matchOfs_near hdist rest)

/-- A match of level two is read back. -/
theorem matchToken_encodeMatch2 {len distance : ℕ} {c : UInt8} {bytes : List UInt8}
    (hlen : 0 < len) (hdist : distance < 65536 + Level.two.maxDistance)
    (henc : encodeMatch2 distance len = c :: bytes) (rest : List UInt8) :
    32 ≤ c.toNat ∧ matchToken .two c.toNat (bytes ++ rest) = some (len - 1, distance, rest) := by
  unfold encodeMatch2 at henc
  rw [shiftLeft_5, shiftLeft_5, shiftRight_8] at henc
  by_cases hnear : distance < Level.two.maxDistance
  · have h8191 : distance < 8191 := hnear
    rw [if_pos hnear] at henc
    split at henc
    · rename_i hshort
      obtain ⟨rfl, rfl⟩ := List.cons.inj henc
      exact matchToken_of_parts (ctrl_parts len _ (by omega) (by omega)) hlen
        (matchLen_short .two hlen hshort _) (matchOfs_near hnear rest)
    · rename_i hlong
      rw [List.cons_append] at henc
      obtain ⟨rfl, rfl⟩ := List.cons.inj henc
      rw [List.append_assoc]
      exact matchToken_of_parts (ctrl_parts 7 _ (by omega) (by omega)) (by omega)
        (matchLen_two (by omega) _) (matchOfs_near hnear rest)
  · have hfar := matchOfs_far (Nat.le_of_not_lt hnear) hdist rest
    rw [if_neg hnear] at henc
    dsimp only at henc
    split at henc
    · rename_i hshort
      obtain ⟨rfl, rfl⟩ := List.cons.inj henc
      exact matchToken_of_parts (ctrl_parts len 31 (by omega) (by omega)) hlen
        (matchLen_short .two hlen hshort _) hfar
    · rename_i hlong
      rw [List.cons_append] at henc
      obtain ⟨rfl, rfl⟩ := List.cons.inj henc
      rw [List.append_assoc]
      exact matchToken_of_parts (ctrl_parts 7 31 (by omega) (by omega)) (by omega)
        (matchLen_two (by omega) _) hfar

/-! ## The decompressor on tokens -/

theorem encodeShort_length_pos (len distance : ℕ) : 0 < (encodeShort len distance).length := by
  unfold encodeShort
  split <;> exact Nat.succ_pos _

theorem encodeMatch2_length_pos (distance len : ℕ) : 0 < (encodeMatch2 distance len).length := by
  unfold encodeMatch2
  repeat' split
  all_goals exact Nat.succ_pos _

/-- No token is empty. -/
theorem encodeToken_length_pos (level : Level) (t : Token UInt8) :
    0 < (encodeToken level t).length := by
  cases t with
  | lit symbols => exact Nat.succ_pos _
  | copy len dist =>
    cases level with
    | one => exact encodeShort_length_pos _ _
    | two => exact encodeMatch2_length_pos _ _

/-- Both copy loops copy from `ref - 1` on. -/
theorem copyMatch_eq (len ofs : ℕ) {out : List UInt8} (hout : 0 < out.length) :
    copyMatch len ofs out = Lz77.copyBack (ofs + 1) (len + 3) out := by
  unfold copyMatch
  split
  · rename_i hrun
    obtain ⟨init, x, rfl⟩ : ∃ init x, out = init ++ [x] :=
      ⟨out.dropLast, _, (List.dropLast_concat_getLast (List.ne_nil_of_length_pos hout)).symm⟩
    have hlast : (init ++ [x]).getD ((init ++ [x]).length - 1) 0 = x := by
      rw [List.length_append, List.length_singleton, Nat.add_sub_cancel,
        List.getD_append_right _ _ _ _ (Nat.le_refl _), Nat.sub_self]
      rfl
    rw [hrun, hlast, Nat.zero_add, Lz77.copyBack_one]
  · rfl

/-- An iteration that finds a match in front of it. -/
theorem step_match {s : Decompressor} {len ofs : ℕ} {rest : List UInt8} (hctrl : 32 ≤ s.ctrl)
    (htoken : matchToken level s.ctrl s.rest = some (len, ofs, rest))
    (hroom : s.out.length + len + 3 ≤ maxout) (hofs : ofs < s.out.length) :
    s.step level maxout = next rest (s.left - (s.rest.length - rest.length))
      (Lz77.copyBack (ofs + 1) (len + 3) s.out) := by
  rw [Decompressor.step, if_pos hctrl, htoken, ← copyMatch_eq len ofs (by omega)]
  show (if _ then _ else if _ then _ else _) = _
  rw [if_neg (by omega), if_neg (by omega)]

/-- An iteration that finds literals in front of it. -/
theorem step_literals {symbols rest out : List UInt8} {left : ℕ} (hpos : 0 < symbols.length)
    (hmax : symbols.length ≤ 32) (hroom : out.length + symbols.length ≤ maxout) :
    (Decompressor.mk (symbols.length - 1) (symbols ++ rest) (symbols.length + left) out).step level
      maxout = next rest left (out ++ symbols) := by
  have hn : symbols.length - 1 + 1 = symbols.length := by omega
  simp only [Decompressor.step, hn]
  rw [if_neg (by omega), if_neg (by omega), if_neg (by omega),
    if_neg (by rw [List.length_append]; omega), List.drop_left, List.take_left,
    Nat.add_sub_cancel_left]

/-- An iteration takes a token. -/
theorem step_encodeToken {t : Token UInt8} {c : UInt8} {bytes : List UInt8} (hfits : Fits level t)
    (hspells : t.Spells mem p q) (hq : q ≤ maxout) (henc : encodeToken level t = c :: bytes)
    (rest : List UInt8) (left : ℕ) :
    (Decompressor.mk c.toNat (bytes ++ rest) (bytes.length + left) (segment mem 0 p)).step level
      maxout = next rest left (segment mem 0 q) := by
  rw [← hspells.apply]
  cases t with
  | lit symbols =>
    obtain ⟨hpos, hmax⟩ := hfits
    obtain ⟨rfl, -⟩ := hspells
    obtain ⟨rfl, rfl⟩ := List.cons.inj henc
    rw [toNat_ofNat (Nat.lt_of_le_of_lt (Nat.sub_le _ 1) (Nat.lt_of_le_of_lt hmax (by decide)))]
    exact step_literals hpos hmax (by rw [Lz77.segment_length]; exact hq)
  | copy len dist =>
    obtain ⟨hlen, hdist, hreach, hone⟩ := hfits
    obtain ⟨rfl, -, hp, -⟩ := hspells
    have hsub : len - 2 - 1 + 3 = len := by omega
    have hback : dist - 1 + 1 = dist := by omega
    obtain ⟨hctrl, htoken⟩ : 32 ≤ c.toNat ∧
        matchToken level c.toNat (bytes ++ rest) = some (len - 2 - 1, dist - 1, rest) := by
      cases level with
      | one =>
        have hmax : len ≤ 264 := hone rfl
        have h8192 : dist < 8192 := hreach
        exact matchToken_encodeShort (by omega) (by omega) (Nat.lt_of_le_of_lt (Nat.sub_le _ 1) h8192)
          henc rest
      | two =>
        have hfar : dist < 65535 + Level.two.maxDistance - 1 := hreach
        exact matchToken_encodeMatch2 (by omega) (by omega) henc rest
    have hused : bytes.length + left - ((bytes ++ rest).length - rest.length) = left := by
      rw [List.length_append]
      omega
    have hroom : (segment mem 0 p).length + (len - 2 - 1) + 3 ≤ maxout := by
      rw [Lz77.segment_length]
      omega
    have hofs : dist - 1 < (segment mem 0 p).length := by
      rw [Lz77.segment_length]
      omega
    rw [step_match (s := ⟨c.toNat, bytes ++ rest, bytes.length + left, segment mem 0 p⟩) hctrl htoken
      hroom hofs, hused, hsub, hback]
    rfl

/-- What the loop makes of an iteration's result. -/
def resume (level : Level) (maxout fuel : ℕ) : Result ⊕ Decompressor → Result
  | .inl r => r
  | .inr s => s.loop level maxout fuel

theorem loop_succ (s : Decompressor) (fuel : ℕ) :
    s.loop level maxout (fuel + 1) = resume level maxout fuel (s.step level maxout) := by
  rw [Decompressor.loop]
  cases s.step level maxout <;> rfl

/-- The loop takes the tokens that lie in front of it and stops behind the last one, whatever lies
there. -/
theorem loop_tokens {ts : List (Token UInt8)} (hfits : ∀ t ∈ ts, Fits level t)
    (hspells : Spells mem ts p q) (hq : q ≤ maxout) (behind : List UInt8) {fuel : ℕ}
    (hfuel : (ts.flatMap (encodeToken level)).length ≤ fuel) :
    resume level maxout fuel (next (ts.flatMap (encodeToken level) ++ behind)
      (ts.flatMap (encodeToken level)).length (segment mem 0 p)) = .returned (segment mem 0 q) := by
  induction ts generalizing p fuel with
  | nil =>
    rw [show p = q from hspells]
    rfl
  | cons t ts ih =>
    obtain ⟨m, ht, hts⟩ := hspells
    obtain ⟨c, bytes, henc⟩ : ∃ c bytes, encodeToken level t = c :: bytes :=
      List.exists_cons_of_length_pos (encodeToken_length_pos level t)
    rw [List.flatMap_cons, List.length_append, henc, List.length_cons] at hfuel
    obtain ⟨fuel, rfl⟩ : ∃ n, fuel = n + 1 := ⟨fuel - 1, by omega⟩
    have hnext : next (List.flatMap (encodeToken level) (t :: ts) ++ behind)
        (List.flatMap (encodeToken level) (t :: ts)).length (segment mem 0 p) =
        .inr ⟨c.toNat, bytes ++ (ts.flatMap (encodeToken level) ++ behind),
          bytes.length + (ts.flatMap (encodeToken level)).length, segment mem 0 p⟩ := by
      have hleft : bytes.length + 1 + (ts.flatMap (encodeToken level)).length - 1 =
          bytes.length + (ts.flatMap (encodeToken level)).length := by omega
      rw [List.flatMap_cons, List.length_append, henc, List.length_cons, List.cons_append,
        List.cons_append, next, if_pos (by omega), hleft, List.append_assoc]
    rw [hnext, resume, loop_succ, step_encodeToken (hfits t (List.mem_cons_self ..)) ht
      (Nat.le_trans (Spells.le hts) hq) henc]
    exact ih (fun u hu => hfits u (List.mem_cons_of_mem _ hu)) hts (by omega)

end Fastlz

end RtThreadOta
