import RtThreadOta.Fastlz.Tokens

/-!
# What the FastLZ decompressor reads and writes

The block may be anything. The output stays within `maxout`. A match is not checked against `ip_limit`,
so a block that ends in the middle of one is read past its end: by two bytes at most at level one, and at
level two for as long as the bytes behind are 255.
-/

namespace RtThreadOta

namespace Fastlz

variable {level : Level} {maxout : ℕ}

/-! ## Readers -/

/-- A reader that takes some bytes and looks at no others. -/
def Prompt {α : Type} (read : List UInt8 → Option (α × List UInt8)) : Prop :=
  ∀ rest a rest', read rest = some (a, rest') →
    ∃ used, rest = used ++ rest' ∧ ∀ more, read (used ++ more) = some (a, more)

theorem prompt_addCode (len : ℕ) : Prompt (addCode len) := by
  intro rest n rest' h
  cases rest with
  | nil => cases h
  | cons code rest =>
    obtain ⟨rfl, rfl⟩ := Prod.mk.inj (Option.some.inj h)
    exact ⟨[code], rfl, fun _ => rfl⟩

theorem prompt_addCodes (len : ℕ) : Prompt (addCodes len) := by
  intro rest n rest' h
  induction rest generalizing len with
  | nil => cases h
  | cons code rest ih =>
    rw [addCodes] at h
    split at h
    · rename_i hcode
      obtain ⟨used, hused, hrun⟩ := ih _ h
      refine ⟨code :: used, by rw [hused, List.cons_append], fun more => ?_⟩
      rw [List.cons_append, addCodes, if_pos hcode, hrun]
    · rename_i hcode
      obtain ⟨rfl, rfl⟩ := Prod.mk.inj (Option.some.inj h)
      refine ⟨[code], rfl, fun more => ?_⟩
      rw [List.singleton_append, addCodes, if_neg hcode]

theorem prompt_matchLen (level : Level) (len : ℕ) : Prompt (matchLen level len) := by
  intro rest n rest' h
  unfold matchLen at h ⊢
  split at h
  · rename_i hlong
    cases level with
    | one =>
      obtain ⟨used, hused, hrun⟩ := prompt_addCode len rest n rest' h
      exact ⟨used, hused, fun more => by rw [if_pos hlong]; exact hrun more⟩
    | two =>
      obtain ⟨used, hused, hrun⟩ := prompt_addCodes len rest n rest' h
      exact ⟨used, hused, fun more => by rw [if_pos hlong]; exact hrun more⟩
  · rename_i hshort
    obtain ⟨rfl, rfl⟩ := Prod.mk.inj (Option.some.inj h)
    exact ⟨[], rfl, fun more => by rw [if_neg hshort, List.nil_append]⟩

theorem prompt_farOfs : Prompt farOfs := by
  intro rest n rest' h
  match rest, h with
  | hi :: lo :: rest, h =>
    obtain ⟨rfl, rfl⟩ := Prod.mk.inj (Option.some.inj h)
    exact ⟨[hi, lo], rfl, fun _ => rfl⟩

theorem prompt_matchOfs (level : Level) (ofs : ℕ) : Prompt (matchOfs level ofs) := by
  intro rest n rest' h
  cases rest with
  | nil => cases h
  | cons code rest =>
    rw [matchOfs] at h
    split at h
    · rename_i hfar
      obtain ⟨used, hused, hrun⟩ := prompt_farOfs rest n rest' h
      refine ⟨code :: used, by rw [hused, List.cons_append], fun more => ?_⟩
      rw [List.cons_append, matchOfs, if_pos hfar, hrun]
    · rename_i hnear
      obtain ⟨rfl, rfl⟩ := Prod.mk.inj (Option.some.inj h)
      refine ⟨[code], rfl, fun more => ?_⟩
      rw [List.singleton_append, matchOfs, if_neg hnear]

/-- A match is its bytes. -/
theorem matchToken_prompt {ctrl len ofs : ℕ} {rest rest' : List UInt8}
    (h : matchToken level ctrl rest = some (len, ofs, rest')) :
    ∃ used, rest = used ++ rest' ∧ ∀ more, matchToken level ctrl (used ++ more) =
      some (len, ofs, more) := by
  unfold matchToken at h ⊢
  simp only [Option.bind_eq_bind, Option.bind_eq_some_iff, Option.pure_def] at h
  obtain ⟨⟨n, rest₁⟩, hlen, ⟨m, rest₂⟩, hofs, heq⟩ := h
  obtain ⟨rfl, rfl, rfl⟩ : n = len ∧ m = ofs ∧ rest₂ = rest' := by
    simpa only [Option.some.injEq, Prod.mk.injEq] using heq
  obtain ⟨used₁, rfl, hrun₁⟩ := prompt_matchLen _ _ _ _ _ hlen
  obtain ⟨used₂, rfl, hrun₂⟩ := prompt_matchOfs _ _ _ _ _ hofs
  refine ⟨used₁ ++ used₂, (List.append_assoc ..).symm, fun more => ?_⟩
  simp only [List.append_assoc, hrun₁, hrun₂, Option.bind_eq_bind, Option.bind_some,
    Option.pure_def]

/-! ## Memory behind the block -/

/-- Memory behind the block in which every match comes to its end. -/
def Fence : Level → List UInt8 → Prop
  | .one, tail => 2 ≤ tail.length
  | .two, tail => ∃ fill code more, tail = fill ++ code :: more ∧ code ≠ 255 ∧ 3 ≤ more.length

/-- The length codes stop at the first one that is not 255. -/
theorem addCodes_isSome {fill more : List UInt8} {code : UInt8} (hcode : code ≠ 255) (len : ℕ) :
    ∃ n rest, addCodes len (fill ++ code :: more) = some (n, rest) ∧ more.length ≤ rest.length := by
  induction fill generalizing len with
  | nil => exact ⟨_, more, by rw [List.nil_append, addCodes, if_neg hcode], Nat.le_refl _⟩
  | cons x fill ih =>
    rw [List.cons_append, addCodes]
    split
    · exact ih _
    · refine ⟨_, _, rfl, ?_⟩
      rw [List.length_append, List.length_cons]
      omega

theorem matchOfs_isSome {rest : List UInt8} (ofs : ℕ)
    (h : 1 ≤ rest.length ∧ (level = .two → 3 ≤ rest.length)) :
    ∃ n rest', matchOfs level ofs rest = some (n, rest') := by
  rcases rest with _ | ⟨code, rest⟩
  · exact absurd h.1 (Nat.not_succ_le_zero 0)
  rw [matchOfs]
  split
  · rename_i hfar
    -- a far match has its two bytes of distance
    have hlen : 2 ≤ rest.length := Nat.le_of_succ_le_succ (h.2 hfar.1)
    obtain ⟨hi, lo, rest, rfl⟩ : ∃ hi lo rest', rest = hi :: lo :: rest' := by
      rcases rest with _ | ⟨hi, _ | ⟨lo, rest⟩⟩
      · exact absurd hlen (Nat.not_succ_le_zero 1)
      · exact absurd (Nat.le_of_succ_le_succ hlen) (Nat.not_succ_le_zero 0)
      · exact ⟨hi, lo, rest, rfl⟩
    exact ⟨_, _, rfl⟩
  · exact ⟨_, _, rfl⟩

/-- No match runs past the fence. -/
theorem matchToken_isSome {tail : List UInt8} (hfence : Fence level tail) (ctrl : ℕ)
    (block : List UInt8) : ∃ len ofs rest, matchToken level ctrl (block ++ tail) =
      some (len, ofs, rest) := by
  obtain ⟨n, rest, hlen, hrest⟩ : ∃ n rest,
      matchLen level (ctrl >>> 5 - 1) (block ++ tail) = some (n, rest) ∧
        1 ≤ rest.length ∧ (level = .two → 3 ≤ rest.length) := by
    unfold matchLen
    split
    · cases level with
      | one =>
        have htwo : 2 ≤ tail.length := hfence
        obtain ⟨code, rest, hcons⟩ : ∃ code rest, block ++ tail = code :: rest :=
          List.exists_cons_of_length_pos (by rw [List.length_append]; omega)
        have hlen := congrArg List.length hcons
        rw [List.length_append, List.length_cons] at hlen
        rw [hcons]
        exact ⟨_, rest, rfl, by omega, fun h => nomatch h⟩
      | two =>
        obtain ⟨fill, code, more, rfl, hcode, hmore⟩ := hfence
        rw [← List.append_assoc]
        obtain ⟨n, rest, hrun, hle⟩ := @addCodes_isSome (block ++ fill) more code hcode
          (ctrl >>> 5 - 1)
        exact ⟨n, rest, hrun, by omega, fun _ => by omega⟩
    · refine ⟨_, _, rfl, ?_⟩
      rw [List.length_append]
      cases level with
      | one =>
        have htwo : 2 ≤ tail.length := hfence
        exact ⟨by omega, fun h => nomatch h⟩
      | two =>
        obtain ⟨fill, code, more, rfl, hcode, hmore⟩ := hfence
        rw [List.length_append, List.length_cons]
        exact ⟨by omega, fun _ => by omega⟩
  obtain ⟨m, rest', hofs⟩ := matchOfs_isSome ((ctrl &&& 31) <<< 8) hrest
  refine ⟨n, m, rest', ?_⟩
  simp only [matchToken, hlen, hofs, Option.bind_eq_bind, Option.bind_some, Option.pure_def]

/-! ## The loop -/

/-- The rest of the block lies in front of `tail`, and the output fits. -/
structure Decompressor.Fenced (tail : List UInt8) (maxout : ℕ) (s : Decompressor) : Prop where
  rest : ∃ block, s.rest = block ++ tail ∧ block.length = s.left
  out : s.out.length ≤ maxout

/-- The same with more memory behind. -/
def Decompressor.extend (s : Decompressor) (more : List UInt8) : Decompressor :=
  { s with rest := s.rest ++ more }

/-- A result that is within bounds. -/
def Result.Safe (maxout : ℕ) : Result → Prop
  | returned out => out.length ≤ maxout
  | corrupt => True
  | overread => False

/-- What an iteration comes to with more memory behind: the same. -/
def SameStep (tail : List UInt8) (maxout : ℕ) (more : List UInt8) (left : ℕ) :
    Result ⊕ Decompressor → Result ⊕ Decompressor → Prop
  | .inl r, .inl r' => r' = r ∧ r.Safe maxout
  | .inr s, .inr s' => s' = s.extend more ∧ s.Fenced tail maxout ∧ s.left < left
  | _, _ => False

variable {tail : List UInt8}

/-- The next control byte is taken from the block. -/
theorem next_same {rest out : List UInt8} {left n : ℕ} (hn : left ≤ n) (hout : out.length ≤ maxout)
    (hrest : 0 < left → ∃ block, rest = block ++ tail ∧ block.length = left)
    (more : List UInt8) : SameStep tail maxout more n (next rest left out)
      (next (rest ++ more) left out) := by
  unfold next
  split
  · rename_i hpos
    obtain ⟨block, rfl, hlen⟩ := hrest hpos
    obtain ⟨ctrl, block, rfl⟩ : ∃ c b, block = c :: b :=
      List.exists_cons_of_length_pos (by omega)
    rw [List.length_cons] at hlen
    refine ⟨rfl, ⟨⟨block, rfl, ?_⟩, hout⟩, ?_⟩
    · show block.length = left - 1
      omega
    · show left - 1 < n
      omega
  · exact ⟨rfl, hout⟩

/-- A copy of a match is as long as it says. -/
theorem copyMatch_length {out : List UInt8} {len ofs : ℕ} (hofs : ofs + 1 ≤ out.length) :
    (copyMatch len ofs out).length = out.length + (len + 3) := by
  rw [copyMatch_eq len ofs (by omega), Lz77.copyBack_length (Nat.succ_pos _) _ hofs]

/-- An iteration neither reads behind the fence nor writes behind `maxout`. -/
theorem step_same {s : Decompressor} (hfence : Fence level tail) (h : s.Fenced tail maxout)
    (more : List UInt8) :
    SameStep tail maxout more s.left (s.step level maxout)
      ((s.extend more).step level maxout) := by
  obtain ⟨block, hrest, hblock⟩ := h.rest
  have hout := h.out
  unfold Decompressor.step Decompressor.extend
  dsimp only
  by_cases hctrl : 32 ≤ s.ctrl
  · rw [if_pos hctrl, if_pos hctrl]
    obtain ⟨len, ofs, rest, htoken⟩ := matchToken_isSome hfence s.ctrl block
    rw [← hrest] at htoken
    obtain ⟨used, hused, hrun⟩ := matchToken_prompt htoken
    have htoken' : matchToken level s.ctrl (s.rest ++ more) = some (len, ofs, rest ++ more) := by
      rw [hused, List.append_assoc, hrun]
    rw [htoken, htoken']
    dsimp only
    by_cases hroom : maxout < s.out.length + len + 3
    · rw [if_pos hroom, if_pos hroom]
      exact ⟨rfl, trivial⟩
    by_cases hback : s.out.length < ofs + 1
    · rw [if_neg hroom, if_neg hroom, if_pos hback, if_pos hback]
      exact ⟨rfl, trivial⟩
    rw [if_neg hroom, if_neg hroom, if_neg hback, if_neg hback, List.length_append,
      List.length_append, Nat.add_sub_add_right]
    have hlen : s.rest.length - rest.length = used.length := by
      rw [hused, List.length_append, Nat.add_sub_cancel]
    rw [hlen]
    refine next_same (by omega) ?_ (fun hpos => ?_) more
    · rw [copyMatch_length (by omega)]
      omega
    · -- the match ends within the block
      have hsplit : used ++ rest = block ++ tail := by rw [← hused, hrest]
      have hdrop := congrArg (List.drop used.length) hsplit
      rw [List.drop_left, List.drop_append_of_le_length (by omega)] at hdrop
      exact ⟨_, hdrop, by rw [List.length_drop, hblock]⟩
  · rw [if_neg hctrl, if_neg hctrl]
    by_cases hroom : maxout < s.out.length + (s.ctrl + 1)
    · rw [if_pos hroom, if_pos hroom]
      exact ⟨rfl, trivial⟩
    by_cases hleft : s.left < s.ctrl + 1
    · rw [if_neg hroom, if_neg hroom, if_pos hleft, if_pos hleft]
      exact ⟨rfl, trivial⟩
    have hlen : s.ctrl + 1 ≤ s.rest.length := by
      rw [hrest, List.length_append]
      omega
    rw [if_neg hroom, if_neg hroom, if_neg hleft, if_neg hleft, if_neg (by omega),
      if_neg (by rw [List.length_append]; omega), List.drop_append_of_le_length hlen,
      List.take_append_of_le_length hlen]
    refine next_same (by omega) ?_ (fun _ => ⟨block.drop (s.ctrl + 1), ?_, ?_⟩) more
    · rw [List.length_append, List.length_take]
      omega
    · rw [hrest, List.drop_append_of_le_length (by omega)]
    · rw [List.length_drop, hblock]

/-- So does the whole loop. -/
theorem loop_same {s : Decompressor} (hfence : Fence level tail) (h : s.Fenced tail maxout)
    (more : List UInt8) {fuel : ℕ} (hfuel : s.left < fuel) :
    (s.extend more).loop level maxout fuel = s.loop level maxout fuel ∧
      (s.loop level maxout fuel).Safe maxout := by
  induction fuel generalizing s with
  | zero => omega
  | succ fuel ih =>
    have hstep := step_same hfence h more
    rw [loop_succ, loop_succ]
    generalize s.step level maxout = x at hstep
    generalize (s.extend more).step level maxout = y at hstep
    match x, y, hstep with
    | .inl r, .inl r', hstep =>
      obtain ⟨rfl, hsafe⟩ := hstep
      exact ⟨rfl, hsafe⟩
    | .inr s₁, .inr s₂, hstep =>
      obtain ⟨rfl, hfenced, hlt⟩ := hstep
      exact ih hfenced (by omega)

/-! ## The decompressor -/

theorem addCodes_replicate (len k : ℕ) : addCodes len (List.replicate k 255) = none := by
  induction k generalizing len with
  | zero => rfl
  | succ k ih =>
    rw [List.replicate_succ, addCodes, if_pos rfl]
    exact ih _

/-- A literal is taken, and then the match behind it runs out of memory. -/
private theorem overread_of_match {level : Level} {rest : List UInt8} (hmax : 0 < maxout)
    (htoken : matchToken level 224 rest = none) (marker : UInt8) (hmarker : marker.toNat &&& 31 = 0) :
    fastlzDecompressor level (marker :: 0 :: 224 :: rest) 3 maxout = .overread := by
  have hliteral := @step_literals level maxout [0] (224 :: rest) [] 1 (Nat.succ_pos 0)
    (Nat.le_add_left 1 31) hmax
  have hmatch : (Decompressor.mk 224 rest 0 [0]).step level maxout = .inl .overread := by
    rw [Decompressor.step, if_pos (show 32 ≤ 224 by omega), htoken]
  rw [fastlzDecompressor, hmarker, loop_succ]
  refine (congrArg (resume level maxout 3) hliteral).trans ?_
  show (Decompressor.mk 224 rest 0 [0]).loop level maxout 3 = _
  rw [loop_succ, hmatch]
  rfl

/-- **No less memory behind the block would do**: one byte is not enough at level one, and at level two no
number of bytes is, when they are 255. -/
theorem fastlzDecompress_overreads (hmax : 0 < maxout) :
    (∀ b, fastlzDecompress [0, 0, 224, b] 3 maxout = .overread) ∧
      ∀ n, fastlzDecompress ([32, 0, 224] ++ List.replicate n 255) 3 maxout = .overread := by
  constructor
  · intro b
    exact overread_of_match hmax rfl 0 (by decide)
  · intro n
    have htoken : matchToken .two 224 (List.replicate n 255) = none := by
      show (addCodes 6 (List.replicate n 255)).bind _ = none
      rw [addCodes_replicate]
      rfl
    exact overread_of_match hmax htoken 32 (by decide)

end Fastlz

end RtThreadOta
