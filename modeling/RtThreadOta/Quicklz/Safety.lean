import RtThreadOta.Quicklz.RoundTrip

/-!
# QuickLZ within its bounds

`QLZ_MEMORY_SAFE` keeps the decompressor of a compressed block, whatever is in it, within the two sizes
of its header: it looks at no byte behind the compressed size, and writes none behind the decompressed
one. The bound on a match is a difference taken as a `ui32`; it does not wrap, because every round but
the last leaves four bytes to be written.
-/

namespace RtThreadOta

namespace Quicklz

open Words

open Lz77 (segment)

variable {size : ℕ} {rest out : List UInt8}

/-! ## The decompressor -/

/-- A result that is within bounds. -/
def Result.Safe (size : ℕ) : Result → Prop
  | returned out => out.length = size
  | corrupt out => out.length ≤ size
  | overread => False

/-- The same with more memory behind. -/
def Decompressor.extend (s : Decompressor) (more : List UInt8) : Decompressor :=
  { s with rest := s.rest ++ more }

/-- What the header counts is there, and four bytes are left to be written or none is written yet. -/
structure Decompressor.Fenced (size : ℕ) (s : Decompressor) : Prop where
  left_le : s.left ≤ s.rest.length
  room : s.out = [] ∨ s.out.length + 4 ≤ size

/-- What a round comes to with more memory behind: the same. -/
def SameStep (size : ℕ) (more : List UInt8) (left : ℕ) :
    Result ⊕ Decompressor → Result ⊕ Decompressor → Prop
  | .inl r, .inl r' => r' = r ∧ r.Safe size
  | .inr s, .inr s' => s' = s.extend more ∧ s.Fenced size ∧ s.left < left
  | _, _ => False

/-- The last loop looks at no byte that the header does not count, and fills the output. -/
theorem lastLiterals_same {missing cword left : ℕ} (hleft : left ≤ rest.length)
    (hout : out.length + missing = size) (more : List UInt8) :
    lastLiterals missing cword (rest ++ more) left out = lastLiterals missing cword rest left out ∧
      (lastLiterals missing cword rest left out).Safe size := by
  induction missing generalizing cword rest left out with
  | zero => exact ⟨rfl, hout⟩
  | succ missing ih =>
    -- one byte, when the control word is settled
    have hbyte : ∀ {cword left : ℕ} {rest : List UInt8}, left ≤ rest.length → left ≠ 0 →
        ∃ b rest', rest = b :: rest' ∧
          lastLiterals missing cword (rest' ++ more) (left - 1) (out ++ [b]) =
            lastLiterals missing cword rest' (left - 1) (out ++ [b]) ∧
          (lastLiterals missing cword rest' (left - 1) (out ++ [b])).Safe size := by
      intro cword left rest hle hne
      obtain ⟨b, rest', rfl⟩ := List.exists_cons_of_length_pos (show 0 < rest.length by omega)
      rw [List.length_cons] at hle
      refine ⟨b, rest', rfl, ih (by omega) ?_⟩
      rw [List.length_append, List.length_singleton]
      omega
    have hcorrupt : (Result.corrupt out).Safe size := by
      show out.length ≤ size
      omega
    have hfour : cwordLen = 4 := rfl
    rw [lastLiterals, lastLiterals]
    by_cases hcword : cword = 1
    · simp only [hcword, if_true]
      by_cases hzero : left - cwordLen = 0
      · rw [if_pos hzero, if_pos hzero]
        exact ⟨rfl, hcorrupt⟩
      · have hle : left - cwordLen ≤ (rest.drop cwordLen).length := by
          rw [List.length_drop]
          omega
        obtain ⟨b, rest', hcons, hsame, hsafe⟩ := hbyte hle hzero
        rw [if_neg hzero, if_neg hzero, List.drop_append_of_le_length (by omega), hcons]
        exact ⟨hsame, hsafe⟩
    · simp only [hcword, if_false]
      by_cases hzero : left = 0
      · rw [if_pos hzero, if_pos hzero]
        exact ⟨rfl, hcorrupt⟩
      · obtain ⟨b, rest', rfl, hsame, hsafe⟩ := hbyte hleft hzero
        rw [if_neg hzero, if_neg hzero]
        exact ⟨hsame, hsafe⟩

/-- A control word is taken from what the header counts. -/
theorem reload_same {s : Decompressor} (h : s.Fenced size) (more : List UInt8) :
    (s.reload = .inl (.corrupt s.out) ∧ (s.extend more).reload = .inl (.corrupt s.out)) ∨
      ∃ s', s.reload = .inr s' ∧ (s.extend more).reload = .inr (s'.extend more) ∧ s'.Fenced size ∧
        s'.left ≤ s.left := by
  have hle := h.left_le
  have hfour : cwordLen = 4 := rfl
  unfold Decompressor.reload Decompressor.extend
  dsimp only
  by_cases hcword : s.cword = 1
  · rw [if_pos hcword, if_pos hcword]
    by_cases hshort : s.left < cwordLen
    · rw [if_pos hshort, if_pos hshort]
      exact Or.inl ⟨rfl, rfl⟩
    · rw [if_neg hshort, if_neg hshort, if_neg (by omega), if_neg (by rw [List.length_append]; omega),
        le32_append_left _ _ (by omega), List.drop_append_of_le_length (by omega)]
      refine Or.inr ⟨_, rfl, rfl, ⟨?_, h.room⟩, Nat.sub_le _ _⟩
      show s.left - cwordLen ≤ (s.rest.drop cwordLen).length
      rw [List.length_drop]
      omega
  · rw [if_neg hcword, if_neg hcword]
    exact Or.inr ⟨s, rfl, rfl, h, Nat.le_refl _⟩

/-- Every format takes one to four bytes. -/
theorem matchToken_used (fetch : ℕ) : 0 < (matchToken fetch).2.2 ∧ (matchToken fetch).2.2 ≤ 4 := by
  unfold matchToken
  repeat' split
  all_goals exact ⟨by simp, by simp⟩

/-- A match leaves four bytes to be written. -/
theorem takeMatch_same {s : Decompressor} (hsize : size < 4294967296) (h : s.Fenced size)
    (hleft : 4 ≤ s.left) (more : List UInt8) :
    SameStep size more s.left (s.takeMatch size) ((s.extend more).takeMatch size) := by
  have hle := h.left_le
  obtain ⟨hpos, hused⟩ := matchToken_used (le32 s.rest 0)
  unfold Decompressor.takeMatch Decompressor.extend
  dsimp only
  rw [le32_append_left _ _ (show 0 + 4 ≤ s.rest.length by omega)]
  generalize matchToken (le32 s.rest 0) = token at hpos hused
  obtain ⟨offset, matchlen, used⟩ := token
  dsimp only at hpos hused ⊢
  have hsafe : (Result.corrupt s.out).Safe size := by
    show s.out.length ≤ size
    rcases h.room with hnil | hroom
    · rw [hnil]
      exact Nat.zero_le _
    · omega
  by_cases hoffset : s.out.length < offset ∨ offset < minOffset + 1
  · rw [if_pos hoffset, if_pos hoffset]
    exact ⟨rfl, hsafe⟩
  have hmin : minOffset = 2 := rfl
  have hroom : s.out.length + 4 ≤ size := by
    rcases h.room with hnil | hroom
    · rw [hnil, List.length_nil] at hoffset
      omega
    · exact hroom
  have hbound : ofInt32 ((size : ℤ) - s.out.length - uncompressedEnd) = size - s.out.length - 4 := by
    have hcast : (size : ℤ) - s.out.length - (4 : ℕ) = (size - s.out.length - 4 : ℕ) := by omega
    rw [show uncompressedEnd = 4 from rfl, hcast, ofInt32_natCast (by omega)]
  rw [if_neg hoffset, if_neg hoffset, hbound]
  by_cases hlong : size - s.out.length - 4 < matchlen
  · rw [if_pos hlong, if_pos hlong]
    exact ⟨rfl, hsafe⟩
  · rw [if_neg hlong, if_neg hlong, List.drop_append_of_le_length (by omega)]
    have hcopy := Lz77.copyBack_length (show 0 < offset by omega) matchlen
      (show offset ≤ s.out.length by omega)
    refine ⟨rfl, ⟨?_, Or.inr ?_⟩, ?_⟩
    · show s.left - used ≤ (s.rest.drop used).length
      rw [List.length_drop]
      omega
    · show (Lz77.copyBack offset matchlen s.out).length + 4 ≤ size
      omega
    · show s.left - used < s.left
      omega

/-- Literals away from the end leave four bytes to be written. -/
theorem takeLiterals_same {s : Decompressor} (h : s.Fenced size) (hleft : 4 ≤ s.left)
    (heven : s.cword &&& 1 = 0) (hroom : s.out.length + 11 < size) (more : List UInt8) :
    SameStep size more s.left (.inr s.takeLiterals) (.inr (s.extend more).takeLiterals) := by
  have hle := h.left_le
  obtain ⟨hpos, hfour, -⟩ := bitlut_spec heven
  unfold Decompressor.takeLiterals Decompressor.extend
  dsimp only
  generalize bitlut.getD (s.cword &&& 0xf) 0 = n at hpos hfour
  rw [List.drop_append_of_le_length (by omega), List.take_append_of_le_length (by omega)]
  refine ⟨rfl, ⟨?_, Or.inr ?_⟩, ?_⟩
  · show s.left - n ≤ (s.rest.drop n).length
    rw [List.length_drop]
    omega
  · show (s.out ++ s.rest.take n).length + 4 ≤ size
    rw [List.length_append, List.length_take]
    omega
  · show s.left - n < s.left
    omega

/-- A round stays within what the header counts. -/
theorem step_same {s : Decompressor} (hsize : size < 4294967296) (h : s.Fenced size)
    (more : List UInt8) :
    SameStep size more s.left (s.step size) ((s.extend more).step size) := by
  have hcorrupt : ∀ {s : Decompressor}, s.Fenced size → (Result.corrupt s.out).Safe size := by
    intro s h
    show s.out.length ≤ size
    rcases h.room with hnil | hroom
    · rw [hnil]
      exact Nat.zero_le _
    · omega
  unfold Decompressor.step
  rcases reload_same h more with ⟨hreload, hreload'⟩ | ⟨s', hreload, hreload', h', hleft⟩
  · rw [hreload, hreload']
    exact ⟨rfl, hcorrupt h⟩
  rw [hreload, hreload']
  have hle := h'.left_le
  have hext : (s'.extend more).left = s'.left ∧ (s'.extend more).cword = s'.cword ∧
      (s'.extend more).out = s'.out ∧ (s'.extend more).rest = s'.rest ++ more := ⟨rfl, rfl, rfl, rfl⟩
  have hweaken : ∀ {x y : Result ⊕ Decompressor}, SameStep size more s'.left x y →
      SameStep size more s.left x y := by
    intro x y hsame
    match x, y, hsame with
    | .inl r, .inl r', hsame => exact hsame
    | .inr t, .inr t', hsame => exact ⟨hsame.1, hsame.2.1, Nat.lt_of_lt_of_le hsame.2.2 hleft⟩
  dsimp only
  rw [hext.1, hext.2.1, hext.2.2.1, hext.2.2.2]
  by_cases hshort : s'.left < 4
  · rw [if_pos hshort, if_pos hshort]
    exact ⟨rfl, hcorrupt h'⟩
  have hrest : ¬ s'.rest.length < 4 := by omega
  have hrest' : ¬ (s'.rest ++ more).length < 4 := by
    rw [List.length_append]
    omega
  rw [if_neg hshort, if_neg hshort, if_neg hrest, if_neg hrest']
  by_cases hbit : s'.cword &&& 1 = 1
  · rw [if_pos hbit, if_pos hbit]
    exact hweaken (takeMatch_same hsize h' (by omega) more)
  rw [if_neg hbit, if_neg hbit]
  by_cases hroom : s'.out.length + unconditionalMatchlen + uncompressedEnd + 1 < size
  · rw [if_pos hroom, if_pos hroom]
    have heven : s'.cword &&& 1 = 0 := by
      rw [Nat.and_one_is_mod] at hbit ⊢
      omega
    exact hweaken (takeLiterals_same h' (by omega) heven hroom more)
  · rw [if_neg hroom, if_neg hroom]
    have hout : s'.out.length + (size - s'.out.length) = size := by
      have hsafe := hcorrupt h'
      have hsafe' : s'.out.length ≤ size := hsafe
      omega
    exact lastLiterals_same hle hout more

/-- So does the whole loop. -/
theorem loop_same {s : Decompressor} (hsize : size < 4294967296) (h : s.Fenced size)
    (more : List UInt8) {fuel : ℕ} (hfuel : s.left < fuel) :
    (s.extend more).loop size fuel = s.loop size fuel ∧ (s.loop size fuel).Safe size := by
  induction fuel generalizing s with
  | zero => omega
  | succ fuel ih =>
    have hstep := step_same hsize h more
    rw [Decompressor.loop, Decompressor.loop]
    generalize s.step size = x at hstep
    generalize (s.extend more).step size = y at hstep
    match x, y, hstep with
    | .inl r, .inl r', hstep =>
      obtain ⟨rfl, hsafe⟩ := hstep
      exact ⟨rfl, hsafe⟩
    | .inr s₁, .inr s₂, hstep =>
      obtain ⟨rfl, hfenced, hlt⟩ := hstep
      exact ih hfenced (by omega)

/-- What the header says is the same with more memory behind it. -/
theorem header_append {source : List UInt8} (h : qlzSizeHeader source ≤ source.length)
    (more : List UInt8) : byteAt (source ++ more) 0 = byteAt source 0 ∧
      qlzSizeHeader (source ++ more) = qlzSizeHeader source ∧
      qlzSizeCompressed (source ++ more) = qlzSizeCompressed source ∧
      qlzSizeDecompressed (source ++ more) = qlzSizeDecompressed source := by
  have hpos : 0 < source.length := Nat.lt_of_lt_of_le (Nat.succ_pos _) h
  have hfirst : byteAt (source ++ more) 0 = byteAt source 0 := byteAt_append_left source more hpos
  have hbytes : sizeBytes (source ++ more) = sizeBytes source := by
    rw [sizeBytes, sizeBytes, hfirst]
  have hread : ∀ i, i + sizeBytes source ≤ source.length →
      fastRead (source ++ more) i (sizeBytes source) = fastRead source i (sizeBytes source) := by
    intro i hi
    unfold fastRead
    split
    · exact le32_append_left source more (by omega)
    · refine byteAt_append_left source more (Nat.lt_of_lt_of_le (Nat.lt_add_of_pos_right ?_) hi)
      unfold sizeBytes
      split <;> omega
  rw [qlzSizeHeader] at h
  refine ⟨hfirst, ?_, ?_, ?_⟩
  · rw [qlzSizeHeader, qlzSizeHeader, hbytes]
  · rw [qlzSizeCompressed, qlzSizeCompressed, hbytes, hread 1 (by omega)]
  · rw [qlzSizeDecompressed, qlzSizeDecompressed, hbytes, hread (1 + sizeBytes source) (by omega)]

theorem qlzSizeDecompressed_lt (source : List UInt8) : qlzSizeDecompressed source < 4294967296 := by
  unfold qlzSizeDecompressed fastRead
  split
  · exact le32_lt _ _
  · have hlt := byteAt_lt source (1 + sizeBytes source)
    omega

/-- **The decompressor on any block.** When the compressed size of the header is there, or for a stored body
the decompressed one, no byte behind it is looked at, and what is put out has the decompressed size or is
refused within it. -/
theorem qlzDecompress_inBounds (source : List UInt8) (hheader : qlzSizeHeader source ≤ source.length)
    (hcompressed : byteAt source 0 &&& 1 = 1 → qlzSizeCompressed source ≤ source.length)
    (hstored : byteAt source 0 &&& 1 ≠ 1 →
      qlzSizeHeader source + qlzSizeDecompressed source ≤ source.length) (more : List UInt8) :
    qlzDecompress (source ++ more) = qlzDecompress source ∧
      (qlzDecompress source).Safe (qlzSizeDecompressed source) := by
  obtain ⟨hfirst, hsame, hr, hsize⟩ := header_append hheader more
  have hlong : (source ++ more).length = source.length + more.length := List.length_append
  unfold qlzDecompress
  rw [hfirst, hsame, hsize]
  dsimp only
  rw [if_neg (show ¬ (source ++ more).length < qlzSizeHeader source by omega),
    if_neg (Nat.not_lt.2 hheader)]
  by_cases hbit : byteAt source 0 &&& 1 = 1
  · rw [if_pos hbit, if_pos hbit]
    have hstart : Decompressor.start (source ++ more) = (Decompressor.start source).extend more := by
      unfold Decompressor.start Decompressor.extend
      rw [hsame, hr, List.drop_append_of_le_length hheader]
    have hfenced : (Decompressor.start source).Fenced (qlzSizeDecompressed source) := by
      refine ⟨?_, Or.inl rfl⟩
      show qlzSizeCompressed source - qlzSizeHeader source ≤
        (source.drop (qlzSizeHeader source)).length
      rw [List.length_drop]
      exact Nat.sub_le_sub_right (hcompressed hbit) _
    rw [qlzDecompressCore, qlzDecompressCore, hstart, hr]
    refine loop_same (qlzSizeDecompressed_lt source) hfenced more ?_
    show qlzSizeCompressed source - qlzSizeHeader source < qlzSizeCompressed source + 1
    omega
  · have hle := hstored hbit
    rw [if_neg hbit, if_neg hbit, if_neg (by omega), if_neg (by omega),
      List.drop_append_of_le_length hheader,
      List.take_append_of_le_length (by rw [List.length_drop]; omega)]
    refine ⟨rfl, ?_⟩
    show ((source.drop (qlzSizeHeader source)).take (qlzSizeDecompressed source)).length = _
    rw [List.length_take, List.length_drop]
    omega

/-- Literals and a match that reaches back behind the beginning. -/
theorem qlzDecompress_inBounds_refused :
    qlzDecompress ([77, 12, 40] ++ [2, 0, 0, 128, 1, 252, 0, 0, 0] ++ [9, 9]) =
        qlzDecompress ([77, 12, 40] ++ [2, 0, 0, 128, 1, 252, 0, 0, 0]) ∧
      (qlzDecompress ([77, 12, 40] ++ [2, 0, 0, 128, 1, 252, 0, 0, 0])).Safe
        (qlzSizeDecompressed ([77, 12, 40] ++ [2, 0, 0, 128, 1, 252, 0, 0, 0])) :=
  qlzDecompress_inBounds _ (by decide) (fun _ => by decide) (fun h => absurd (by decide) h) [9, 9]

end Quicklz

end RtThreadOta
