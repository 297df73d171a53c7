import RtThreadOta.Ymodem.Session

/-!
# The bytes that the parser of the first packet loads (`ymodem_on_begin`)

`ymodem_on_begin` is told how long the payload is and does not use it: `rt_strlen` looks for the end of
the name and `atol` for the end of the number, wherever these are. Here both are programs that load one
byte after another, by its offset in the payload, so that what they load can be compared with its end.
-/

namespace RtThreadOta

open Interaction Words

/-! ## Loads -/

/-- Programs that load bytes, by their offset. -/
abbrev Loads (α : Type) := Prog (fun _ : ℕ => UInt8) Unit α

/-- The memory from the payload on, and the loads so far. -/
def memory (mem : ℕ → UInt8) : Handler (fun _ : ℕ => UInt8) (List ℕ) :=
  fun i loads => (some (mem i), loads ++ [i])

/-- `*s` -/
def loadByte (i : ℕ) : Loads UInt8 := Prog.ask i

/-- The loop of `rt_strlen`: the offset of the zero byte. -/
def rtStrlenLoop : (fuel : ℕ) → (sc : ℕ) → Loads ℕ
  | 0, _ => Prog.halt ()
  | fuel + 1, sc => do
    let c ← loadByte sc
    if c ≠ 0 then rtStrlenLoop fuel (sc + 1) else Prog.ret sc

/-- The loop of `atol` over the space in front of a number: the character behind it and its offset. -/
def atolSpaceLoop : (fuel : ℕ) → (s : ℕ) → Loads (UInt8 × ℕ)
  | 0, _ => Prog.halt ()
  | fuel + 1, s => do
    let c ← loadByte s
    if isSpace c then atolSpaceLoop fuel (s + 1) else Prog.ret (c, s)

/-- The loop of `atol` over the digits; `c` is the character at offset `s`. -/
def atolDigitLoop : (fuel : ℕ) → (c : UInt8) → (s acc : ℕ) → Loads ℕ
  | 0, _, _, _ => Prog.halt ()
  | fuel + 1, c, s, acc =>
    if isDigit c then do
      let c' ← loadByte (s + 1)
      atolDigitLoop fuel c' (s + 1) (10 * acc + (c.toNat - 48))
    else Prog.ret acc

/-- `atol` at an offset. -/
def atolAt (fuel s : ℕ) : Loads ℤ := do
  let (c, s) ← atolSpaceLoop fuel s
  if c = 45 then do
    let c ← loadByte (s + 1)
    let n ← atolDigitLoop fuel c (s + 1) 0
    Prog.ret (max (-2147483648) (-(n : ℤ)))
  else if c = 43 then do
    let c ← loadByte (s + 1)
    let n ← atolDigitLoop fuel c (s + 1) 0
    Prog.ret (min 2147483647 (n : ℤ))
  else do
    let n ← atolDigitLoop fuel c s 0
    Prog.ret (min 2147483647 (n : ℤ))

/-- The start of `ymodem_on_begin`: `update_file_total_size`. -/
def parseFileSize (fuel : ℕ) : Loads ℕ := do
  let len ← rtStrlenLoop fuel 0
  let size ← atolAt fuel (len + 1)
  Prog.ret (ofInt32 size)

/-- However far it gets, the parser loads nothing from the offset `len` on. -/
def LoadsInside (mem : ℕ → UInt8) (len : ℕ) : Prop :=
  ∀ fuel, ∀ i ∈ ((parseFileSize fuel).run (memory mem) []).state, i < len

/-- A text lies at an offset. -/
def LiesAt (mem : ℕ → UInt8) (s : ℕ) (text : List UInt8) : Prop :=
  ∀ (i : ℕ) (hi : i < text.length), mem (s + i) = text[i]

section Loads

variable {mem : ℕ → UInt8} {s len fuel : ℕ} {c : UInt8} {text rest : List UInt8} {loads : List ℕ}

theorem LiesAt.head (h : LiesAt mem s (c :: text)) : mem s = c := h 0 (Nat.succ_pos _)

theorem LiesAt.tail (h : LiesAt mem s (c :: text)) : LiesAt mem (s + 1) text := by
  intro i hi
  have hadd : s + 1 + i = s + (i + 1) := by omega
  rw [hadd]
  exact h (i + 1) (Nat.succ_lt_succ hi)

theorem LiesAt.drop (h : LiesAt mem s (text ++ rest)) : LiesAt mem (s + text.length) rest := by
  intro i hi
  have happ := h (text.length + i) (by rw [List.length_append]; omega)
  rw [List.getElem_append_right (Nat.le_add_right _ _)] at happ
  simpa only [Nat.add_assoc, Nat.add_sub_cancel_left] using happ

/-- All loads so far are below `len`. -/
def LoadsBelow (len : ℕ) (loads : List ℕ) : Prop := ∀ i ∈ loads, i < len

theorem LoadsBelow.concat (h : LoadsBelow len loads) (hs : s < len) :
    LoadsBelow len (loads ++ [s]) := by
  intro i hi
  rcases List.mem_append.1 hi with hi | hi
  · exact h i hi
  · rw [List.mem_singleton.1 hi]
    exact hs

@[simp] theorem wp_loadByte {Q : UInt8 → List ℕ → Prop} {E : Option Unit → List ℕ → Prop} :
    (loadByte s).wp (memory mem) Q E loads ↔ Q (mem s) (loads ++ [s]) := Iff.rfl

/-! ### Loads that stay below the end -/

section Below

variable {E : Option Unit → List ℕ → Prop}

theorem wp_rtStrlenLoop {name : List UInt8} (hname : ∀ b ∈ name, b ≠ 0)
    (h : LiesAt mem s (name ++ 0 :: rest)) (hlen : s + name.length < len)
    (hloads : LoadsBelow len loads) {Q : ℕ → List ℕ → Prop}
    (hok : ∀ loads', LoadsBelow len loads' → Q (s + name.length) loads')
    (hend : fuel ≤ name.length → ∀ loads', LoadsBelow len loads' → E (some ()) loads') :
    (rtStrlenLoop fuel s).wp (memory mem) Q E loads := by
  induction name generalizing fuel s loads with
  | nil =>
    cases fuel with
    | zero => exact hend (Nat.zero_le _) _ hloads
    | succ fuel =>
      have hzero : mem s = 0 := h.head
      rw [rtStrlenLoop, Prog.wp_bind, wp_loadByte, hzero, if_neg (not_not.2 rfl)]
      exact hok _ (hloads.concat hlen)
  | cons b name ih =>
    cases fuel with
    | zero => exact hend (Nat.zero_le _) _ hloads
    | succ fuel =>
      have hhead : mem s = b := h.head
      have hb : b ≠ 0 := hname b List.mem_cons_self
      rw [List.length_cons] at hlen hend
      rw [rtStrlenLoop, Prog.wp_bind, wp_loadByte, hhead, if_pos hb]
      refine ih (fun b' hb' => hname b' (List.mem_cons_of_mem _ hb')) h.tail (by omega)
        (hloads.concat (by omega)) (fun loads' h' => ?_) fun hfuel => hend (by omega)
      have hq := hok loads' h'
      rwa [List.length_cons, Nat.add_comm name.length, ← Nat.add_assoc] at hq

theorem wp_atolSpaceLoop {space : List UInt8} (hspace : ∀ b ∈ space, isSpace b = true)
    (hc : isSpace c = false) (h : LiesAt mem s (space ++ c :: rest)) (hlen : s + space.length < len)
    (hloads : LoadsBelow len loads) {Q : UInt8 × ℕ → List ℕ → Prop}
    (hok : ∀ loads', LoadsBelow len loads' → Q (c, s + space.length) loads')
    (hend : fuel ≤ space.length → ∀ loads', LoadsBelow len loads' → E (some ()) loads') :
    (atolSpaceLoop fuel s).wp (memory mem) Q E loads := by
  induction space generalizing fuel s loads with
  | nil =>
    cases fuel with
    | zero => exact hend (Nat.zero_le _) _ hloads
    | succ fuel =>
      have hhead : mem s = c := h.head
      rw [atolSpaceLoop, Prog.wp_bind, wp_loadByte, hhead, hc]
      exact hok _ (hloads.concat hlen)
  | cons b space ih =>
    cases fuel with
    | zero => exact hend (Nat.zero_le _) _ hloads
    | succ fuel =>
      have hhead : mem s = b := h.head
      rw [List.length_cons] at hlen hend
      rw [atolSpaceLoop, Prog.wp_bind, wp_loadByte, hhead, hspace b List.mem_cons_self]
      refine ih (fun b' hb' => hspace b' (List.mem_cons_of_mem _ hb')) h.tail (by omega)
        (hloads.concat (by omega)) (fun loads' h' => ?_) fun hfuel => hend (by omega)
      have hq := hok loads' h'
      rwa [List.length_cons, Nat.add_comm space.length, ← Nat.add_assoc] at hq

/-- The value of digits behind others. -/
def digitsValue (acc : ℕ) (ds : List UInt8) : ℕ := ds.foldl (fun n b => 10 * n + (b.toNat - 48)) acc

theorem wp_atolDigitLoop {ds : List UInt8} (hds : ∀ b ∈ ds, isDigit b = true)
    (hc : isDigit c = false) (h : LiesAt mem s (ds ++ c :: rest)) (hlen : s + ds.length < len)
    (hloads : LoadsBelow len loads) {acc : ℕ} {Q : ℕ → List ℕ → Prop}
    (hok : ∀ loads', LoadsBelow len loads' → Q (digitsValue acc ds) loads')
    (hend : fuel ≤ ds.length → ∀ loads', LoadsBelow len loads' → E (some ()) loads') :
    (atolDigitLoop fuel (mem s) s acc).wp (memory mem) Q E loads := by
  induction ds generalizing fuel s loads acc with
  | nil =>
    cases fuel with
    | zero => exact hend (Nat.zero_le _) _ hloads
    | succ fuel =>
      have hhead : mem s = c := h.head
      rw [atolDigitLoop, hhead, hc]
      exact hok _ hloads
  | cons b ds ih =>
    cases fuel with
    | zero => exact hend (Nat.zero_le _) _ hloads
    | succ fuel =>
      have hhead : mem s = b := h.head
      rw [List.length_cons] at hlen hend
      rw [atolDigitLoop, hhead, hds b List.mem_cons_self, if_pos rfl, Prog.wp_bind, wp_loadByte]
      exact ih (fun b' hb' => hds b' (List.mem_cons_of_mem _ hb')) h.tail (by omega)
        (hloads.concat (by omega)) (fun loads' h' => hok loads' h') fun hfuel => hend (by omega)

end Below

/-! ### Loads that reach the end -/

/-- A load is not taken back. -/
theorem wp_loads_kept {α : Type} (p : Loads α) {i : ℕ} (h : i ∈ loads) :
    p.wp (memory mem) (fun _ loads' => i ∈ loads') (fun _ loads' => i ∈ loads') loads := by
  induction p generalizing loads with
  | ret a => exact h
  | halt x => exact h
  | call o k ih => exact ih _ (List.mem_append_left _ h)

theorem wp_rtStrlenLoop_end {name : List UInt8} (hname : ∀ b ∈ name, b ≠ 0)
    (h : LiesAt mem s name) (hfuel : name.length < fuel) {Q : ℕ → List ℕ → Prop}
    {E : Option Unit → List ℕ → Prop} (hq : ∀ r loads', s + name.length ∈ loads' → Q r loads')
    (he : ∀ x loads', s + name.length ∈ loads' → E x loads') :
    (rtStrlenLoop fuel s).wp (memory mem) Q E loads := by
  induction name generalizing fuel s loads with
  | nil =>
    obtain ⟨fuel, rfl⟩ : ∃ k, fuel = k + 1 := ⟨fuel - 1, by omega⟩
    rw [rtStrlenLoop, Prog.wp_bind, wp_loadByte]
    have hmem : s ∈ loads ++ [s] := List.mem_append_right _ (List.mem_singleton_self _)
    exact Prog.wp_mono (wp_loads_kept _ hmem) hq he
  | cons b name ih =>
    obtain ⟨fuel, rfl⟩ : ∃ k, fuel = k + 1 := ⟨fuel - 1, by omega⟩
    have hhead : mem s = b := h.head
    have hb : b ≠ 0 := hname b List.mem_cons_self
    rw [List.length_cons] at hfuel hq he
    rw [rtStrlenLoop, Prog.wp_bind, wp_loadByte, hhead, if_pos hb]
    have hsame : s + 1 + name.length = s + (name.length + 1) := by omega
    exact ih (fun b' hb' => hname b' (List.mem_cons_of_mem _ hb')) h.tail (by omega)
      (fun r loads' h' => hq r loads' (hsame ▸ h')) fun x loads' h' => he x loads' (hsame ▸ h')

theorem wp_atolSpaceLoop_end {space : List UInt8} (hspace : ∀ b ∈ space, isSpace b = true)
    (h : LiesAt mem s space) (hfuel : space.length < fuel) {Q : UInt8 × ℕ → List ℕ → Prop}
    {E : Option Unit → List ℕ → Prop} (hq : ∀ r loads', s + space.length ∈ loads' → Q r loads')
    (he : ∀ x loads', s + space.length ∈ loads' → E x loads') :
    (atolSpaceLoop fuel s).wp (memory mem) Q E loads := by
  induction space generalizing fuel s loads with
  | nil =>
    obtain ⟨fuel, rfl⟩ : ∃ k, fuel = k + 1 := ⟨fuel - 1, by omega⟩
    rw [atolSpaceLoop, Prog.wp_bind, wp_loadByte]
    have hmem : s ∈ loads ++ [s] := List.mem_append_right _ (List.mem_singleton_self _)
    exact Prog.wp_mono (wp_loads_kept _ hmem) hq he
  | cons b space ih =>
    obtain ⟨fuel, rfl⟩ : ∃ k, fuel = k + 1 := ⟨fuel - 1, by omega⟩
    have hhead : mem s = b := h.head
    rw [List.length_cons] at hfuel hq he
    rw [atolSpaceLoop, Prog.wp_bind, wp_loadByte, hhead, hspace b List.mem_cons_self]
    have hsame : s + 1 + space.length = s + (space.length + 1) := by omega
    exact ih (fun b' hb' => hspace b' (List.mem_cons_of_mem _ hb')) h.tail (by omega)
      (fun r loads' h' => hq r loads' (hsame ▸ h')) fun x loads' h' => he x loads' (hsame ▸ h')

theorem wp_atolDigitLoop_end {ds : List UInt8} (hds : ∀ b ∈ ds, isDigit b = true)
    (h : LiesAt mem s ds) (hs : ds = [] → s ∈ loads) (hfuel : ds.length < fuel) {acc : ℕ}
    {Q : ℕ → List ℕ → Prop} {E : Option Unit → List ℕ → Prop}
    (hq : ∀ r loads', s + ds.length ∈ loads' → Q r loads')
    (he : ∀ x loads', s + ds.length ∈ loads' → E x loads') :
    (atolDigitLoop fuel (mem s) s acc).wp (memory mem) Q E loads := by
  induction ds generalizing fuel s loads acc with
  | nil => exact Prog.wp_mono (wp_loads_kept _ (hs rfl)) hq he
  | cons b ds ih =>
    obtain ⟨fuel, rfl⟩ : ∃ k, fuel = k + 1 := ⟨fuel - 1, by omega⟩
    have hhead : mem s = b := h.head
    rw [List.length_cons] at hfuel hq he
    rw [atolDigitLoop, hhead, hds b List.mem_cons_self, if_pos rfl, Prog.wp_bind, wp_loadByte]
    have hsame : s + 1 + ds.length = s + (ds.length + 1) := by omega
    exact ih (fun b' hb' => hds b' (List.mem_cons_of_mem _ hb')) h.tail
      (fun _ => List.mem_append_right _ (List.mem_singleton_self _)) (by omega)
      (fun r loads' h' => hq r loads' (hsame ▸ h')) fun x loads' h' => he x loads' (hsame ▸ h')

/-! ### The parser -/

/-- A text begins with what satisfies a test, up to its end or to a byte that does not. -/
theorem span_cases (p : UInt8 → Bool) (text : List UInt8) :
    (∀ b ∈ text, p b = true) ∧ text.dropWhile p = [] ∨ ∃ front c rest, text = front ++ c :: rest ∧
      (∀ b ∈ front, p b = true) ∧ p c = false ∧ text.dropWhile p = c :: rest ∧
      text.takeWhile p = front := by
  have happ := List.takeWhile_append_dropWhile (p := p) (l := text)
  have hfront : ∀ b ∈ text.takeWhile p, p b = true := fun b hb => List.mem_takeWhile_imp hb
  cases hdrop : text.dropWhile p with
  | nil =>
    rw [hdrop, List.append_nil] at happ
    rw [happ] at hfront
    exact Or.inl ⟨hfront, rfl⟩
  | cons c rest =>
    rw [hdrop] at happ
    have hne : text.dropWhile p ≠ [] := by
      rw [hdrop]
      exact List.cons_ne_nil c rest
    have hc := List.head_dropWhile_not p hne
    simp only [hdrop, List.head_cons] at hc
    exact Or.inr ⟨_, c, rest, happ.symm, hfront, hc, rfl, rfl⟩

theorem digits_cases (text : List UInt8) :
    (∀ b ∈ text, isDigit b = true) ∧ digits text = none ∨ ∃ ds c rest, text = ds ++ c :: rest ∧
      (∀ b ∈ ds, isDigit b = true) ∧ isDigit c = false ∧ digits text = some (digitsValue 0 ds) ∧
      text.takeWhile isDigit = ds := by
  rcases span_cases isDigit text with ⟨hall, -⟩ | ⟨ds, c, rest, heq, hds, hc, -, htake⟩
  · refine Or.inl ⟨hall, ?_⟩
    rw [digits, if_pos (List.all_eq_true.2 hall)]
  · refine Or.inr ⟨ds, c, rest, heq, hds, hc, ?_, htake⟩
    rw [digits, htake, if_neg]
    · rfl
    · rw [List.all_eq_true]
      intro hall
      rw [hall c (by rw [heq]; exact List.mem_append_right _ List.mem_cons_self)] at hc
      exact Bool.noConfusion hc

/-- Digits whose end lies in the text. -/
theorem wp_atolDigitLoop_text (h : LiesAt mem s text) {n : ℕ} (hn : digits text = some n)
    (hlen : s + text.length ≤ len) (hloads : LoadsBelow len loads) {Q : ℕ → List ℕ → Prop}
    {E : Option Unit → List ℕ → Prop} (hok : ∀ loads', LoadsBelow len loads' → Q n loads')
    (hend : fuel ≤ text.length → ∀ loads', LoadsBelow len loads' → E (some ()) loads') :
    (atolDigitLoop fuel (mem s) s 0).wp (memory mem) Q E loads := by
  rcases digits_cases text with ⟨-, hnone⟩ | ⟨ds, c, rest, rfl, hds, hc, hsome, -⟩
  · rw [hn] at hnone
    cases hnone
  · rw [hn] at hsome
    obtain rfl := Option.some.inj hsome
    rw [List.length_append, List.length_cons] at hlen hend
    exact wp_atolDigitLoop hds hc h (by omega) hloads hok fun hfuel => hend (by omega)

theorem wp_atolAt (h : LiesAt mem s text) {i : ℤ} (hi : atol text = some i)
    (hlen : s + text.length ≤ len) (hloads : LoadsBelow len loads) {Q : ℤ → List ℕ → Prop}
    {E : Option Unit → List ℕ → Prop} (hok : ∀ loads', LoadsBelow len loads' → Q i loads')
    (hend : fuel ≤ text.length → ∀ loads', LoadsBelow len loads' → E (some ()) loads') :
    (atolAt fuel s).wp (memory mem) Q E loads := by
  rw [atol] at hi
  rcases span_cases isSpace text with ⟨-, hnil⟩ | ⟨space, c, rest, rfl, hspace, hc, hdrop, -⟩
  · rw [hnil] at hi
    cases hi
  rw [hdrop] at hi
  simp only at hi
  rw [List.length_append, List.length_cons] at hlen hend
  rw [atolAt, Prog.wp_bind]
  refine wp_atolSpaceLoop hspace hc h (by omega) hloads (fun loads₁ h₁ => ?_)
    fun hfuel => hend (by omega)
  have hbehind : LiesAt mem (s + space.length) (c :: rest) := h.drop
  have hhead : mem (s + space.length) = c := hbehind.head
  -- a sign takes one more load
  have hsigned : ∀ {n : ℕ}, digits rest = some n → ∀ {Q' : ℕ → List ℕ → Prop},
      (∀ loads', LoadsBelow len loads' → Q' n loads') →
      (atolDigitLoop fuel (mem (s + space.length + 1)) (s + space.length + 1) 0).wp (memory mem) Q' E
        (loads₁ ++ [s + space.length + 1]) := by
    intro n hn Q' hok'
    have hpos : 0 < rest.length := by
      cases rest with
      | nil => cases hn
      | cons b rest => exact Nat.succ_pos _
    exact wp_atolDigitLoop_text hbehind.tail hn (by omega) (h₁.concat (by omega)) hok'
      fun hfuel => hend (by omega)
  simp only
  by_cases hminus : c = 45
  · rw [if_pos hminus] at hi ⊢
    obtain ⟨n, hn, rfl⟩ := Option.map_eq_some_iff.1 hi
    rw [Prog.wp_bind, wp_loadByte, Prog.wp_bind]
    exact hsigned hn hok
  rw [if_neg hminus] at hi ⊢
  obtain ⟨n, hn, rfl⟩ := Option.map_eq_some_iff.1 hi
  by_cases hplus : c = 43
  · rw [if_pos hplus] at hn ⊢
    rw [Prog.wp_bind, wp_loadByte, Prog.wp_bind]
    exact hsigned hn hok
  · rw [if_neg hplus] at hn ⊢
    rw [Prog.wp_bind]
    have hdigits := @wp_atolDigitLoop_text mem (s + space.length) len fuel (c :: rest) loads₁ hbehind n hn
      (by rw [List.length_cons]; omega) h₁ (fun n loads' => Q (min 2147483647 (n : ℤ)) loads') E hok
      fun hfuel => hend (by rw [List.length_cons] at hfuel; omega)
    rw [hhead] at hdigits
    exact hdigits

theorem wp_atolAt_end (h : LiesAt mem s text) (hnone : atol text = none) (hfuel : text.length < fuel)
    (hloads : LoadsBelow (s + text.length) loads) {Q : ℤ → List ℕ → Prop}
    {E : Option Unit → List ℕ → Prop} (hq : ∀ r loads', s + text.length ∈ loads' → Q r loads')
    (he : ∀ x loads', s + text.length ∈ loads' → E x loads') :
    (atolAt fuel s).wp (memory mem) Q E loads := by
  rw [atol] at hnone
  rw [atolAt, Prog.wp_bind]
  rcases span_cases isSpace text with ⟨hspace, -⟩ | ⟨space, c, rest, rfl, hspace, hc, hdrop, -⟩
  · exact wp_atolSpaceLoop_end hspace h hfuel
      (fun r loads' h' => Prog.wp_mono (wp_loads_kept _ h') hq he) he
  rw [hdrop] at hnone
  simp only at hnone
  rw [List.length_append, List.length_cons] at hfuel hq he hloads
  refine wp_atolSpaceLoop hspace hc h (by omega) hloads (fun loads₁ h₁ => ?_)
    fun hless => absurd hless (by omega)
  have hbehind : LiesAt mem (s + space.length) (c :: rest) := h.drop
  have hhead : mem (s + space.length) = c := hbehind.head
  have hsame : s + space.length + 1 + rest.length = s + (space.length + (rest.length + 1)) := by
    omega
  -- behind a sign the digits begin with one more load
  have hsigned : digits rest = none → ∀ {Q' : ℕ → List ℕ → Prop},
      (∀ n loads', s + (space.length + (rest.length + 1)) ∈ loads' → Q' n loads') →
      (atolDigitLoop fuel (mem (s + space.length + 1)) (s + space.length + 1) 0).wp (memory mem) Q' E
        (loads₁ ++ [s + space.length + 1]) := by
    intro hn Q' hq'
    rcases digits_cases rest with ⟨hall, -⟩ | ⟨ds, c', rest', -, -, -, hsome, -⟩
    · exact wp_atolDigitLoop_end hall hbehind.tail
        (fun _ => List.mem_append_right _ (List.mem_singleton_self _)) (by omega)
        (fun n loads' h' => hq' n loads' (hsame ▸ h')) fun x loads' h' => he x loads' (hsame ▸ h')
    · rw [hn] at hsome
      cases hsome
  simp only
  by_cases hminus : c = 45
  · rw [if_pos hminus] at hnone ⊢
    rw [Prog.wp_bind, wp_loadByte, Prog.wp_bind]
    exact hsigned (Option.map_eq_none_iff.1 hnone) fun n loads' h' => hq _ loads' h'
  rw [if_neg hminus] at hnone ⊢
  have hnone := Option.map_eq_none_iff.1 hnone
  by_cases hplus : c = 43
  · rw [if_pos hplus] at hnone ⊢
    rw [Prog.wp_bind, wp_loadByte, Prog.wp_bind]
    exact hsigned hnone fun n loads' h' => hq _ loads' h'
  · rw [if_neg hplus] at hnone ⊢
    rw [Prog.wp_bind, ← hhead]
    rcases digits_cases (c :: rest) with ⟨hall, -⟩ | ⟨ds, c', rest', -, -, -, hsome, -⟩
    · refine wp_atolDigitLoop_end hall hbehind (fun h => by cases h) (by rw [List.length_cons]; omega)
        (fun n loads' h' => hq _ loads' ?_) fun x loads' h' => he x loads' ?_
      · rwa [List.length_cons, Nat.add_assoc] at h'
      · rwa [List.length_cons, Nat.add_assoc] at h'
    · rw [hnone] at hsome
      cases hsome

/-- The parser stays within a text in which the number ends, and finds the announced size there. -/
theorem wp_parseFileSize (h : LiesAt mem 0 text) {n : ℕ} (hn : fileSize text = some n)
    (hlen : text.length ≤ len) {Q : ℕ → List ℕ → Prop} {E : Option Unit → List ℕ → Prop}
    (hok : ∀ loads', LoadsBelow len loads' → Q n loads')
    (hend : fuel ≤ text.length → ∀ loads', LoadsBelow len loads' → E (some ()) loads') :
    (parseFileSize fuel).wp (memory mem) Q E [] := by
  have hstart : LoadsBelow len [] := fun i hi => by cases hi
  rw [fileSize] at hn
  rcases span_cases (fun b => decide (b ≠ 0)) text with
    ⟨-, hnil⟩ | ⟨name, c, size, rfl, hname, hc, hdrop, -⟩
  · rw [hnil] at hn
    cases hn
  rw [hdrop] at hn
  obtain ⟨i, hi, rfl⟩ := Option.map_eq_some_iff.1 hn
  obtain rfl : c = 0 := not_not.1 (of_decide_eq_false hc)
  rw [List.length_append, List.length_cons] at hlen hend
  rw [parseFileSize, Prog.wp_bind]
  refine wp_rtStrlenLoop (fun b hb => of_decide_eq_true (hname b hb)) h (by omega) hstart
    (fun loads₁ h₁ => ?_) fun hfuel => hend (by omega)
  rw [Prog.wp_bind]
  have hbehind : LiesAt mem (0 + name.length) (0 :: size) := h.drop
  exact wp_atolAt hbehind.tail hi (by omega) h₁ hok fun hfuel => hend (by omega)

/-- In any other text it runs to the end, and loads what lies there. -/
theorem wp_parseFileSize_end (h : LiesAt mem 0 text) (hnone : fileSize text = none)
    (hfuel : text.length < fuel) : (parseFileSize fuel).wp (memory mem)
      (fun _ loads' => text.length ∈ loads') (fun _ loads' => text.length ∈ loads') [] := by
  rw [fileSize] at hnone
  rw [parseFileSize, Prog.wp_bind]
  rcases span_cases (fun b => decide (b ≠ 0)) text with
    ⟨hname, -⟩ | ⟨name, c, size, rfl, hname, hc, hdrop, -⟩
  · refine wp_rtStrlenLoop_end (fun b hb => of_decide_eq_true (hname b hb)) h hfuel
      (fun r loads' h' => ?_) fun x loads' h' => ?_
    · rw [Nat.zero_add] at h'
      exact wp_loads_kept _ h'
    · rwa [Nat.zero_add] at h'
  rw [hdrop] at hnone
  have hatol := Option.map_eq_none_iff.1 hnone
  obtain rfl : c = 0 := not_not.1 (of_decide_eq_false hc)
  rw [List.length_append, List.length_cons] at hfuel ⊢
  have hbehind : LiesAt mem (0 + name.length) (0 :: size) := h.drop
  have hsame : 0 + name.length + 1 + size.length = name.length + (size.length + 1) := by omega
  have hstart : LoadsBelow (0 + name.length + 1 + size.length) [] := fun i hi => by cases hi
  refine wp_rtStrlenLoop (fun b hb => of_decide_eq_true (hname b hb)) h (by omega) hstart
    (fun loads₁ h₁ => ?_) fun hless => absurd hless (by omega)
  rw [Prog.wp_bind]
  refine wp_atolAt_end hbehind.tail hatol (by omega) h₁ (fun r loads' h' => ?_) fun x loads' h' => ?_
  · rwa [hsame] at h'
  · rwa [hsame] at h'

/-- The parser loads only bytes of the payload exactly when the number ends in it. -/
theorem loadsInside_iff (h : LiesAt mem 0 text) :
    LoadsInside mem text.length ↔ ∃ n, fileSize text = some n := by
  constructor
  · intro hinside
    cases hsize : fileSize text with
    | some n => exact ⟨n, rfl⟩
    | none =>
      have hwp := wp_parseFileSize_end h hsize (Nat.lt_succ_self text.length)
      have hmem := hinside (text.length + 1) text.length
      rw [Prog.wp_iff_run] at hwp
      cases hrun : (parseFileSize (text.length + 1)).run (memory mem) [] <;> rw [hrun] at hwp hmem <;>
        exact absurd (hmem hwp) (Nat.lt_irrefl _)
  · rintro ⟨n, hn⟩ fuel
    have hwp : (parseFileSize fuel).wp (memory mem) (fun _ loads' => LoadsBelow text.length loads')
        (fun _ loads' => LoadsBelow text.length loads') [] :=
      wp_parseFileSize h hn (Nat.le_refl _) (fun _ h' => h') fun _ _ h' => h'
    rw [Prog.wp_iff_run] at hwp
    cases hrun : (parseFileSize fuel).run (memory mem) [] <;> rw [hrun] at hwp <;> exact hwp

/-! ## What has to end in the payload -/

/-- Space, a sign, digits, either or both of them missing, and a byte that ends them. -/
def NumberEnds (text : List UInt8) : Prop :=
  ∃ space sign ds c rest, text = space ++ (sign ++ (ds ++ c :: rest)) ∧
    (∀ b ∈ space, isSpace b = true) ∧ (sign = [] ∨ sign = [45] ∨ sign = [43]) ∧
    (∀ b ∈ ds, isDigit b = true) ∧ isDigit c = false ∧
    (sign = [] → ds = [] → isSpace c = false ∧ c ≠ 45 ∧ c ≠ 43)

/-- A name with its zero byte, and a number behind it with a byte that ends it. -/
def NameAndNumberEnd (payload : List UInt8) : Prop :=
  ∃ name text, payload = name ++ 0 :: text ∧ (∀ b ∈ name, b ≠ 0) ∧ NumberEnds text

theorem isSpace_of_isDigit {b : UInt8} (h : isDigit b = true) : isSpace b = false ∧ b ≠ 45 ∧ b ≠ 43 := by
  have hrange := of_decide_eq_true h
  refine ⟨?_, ?_, ?_⟩
  · rw [isSpace, decide_eq_false_iff_not]
    rintro (rfl | ⟨-, hle⟩)
    · exact absurd hrange.1 (by decide)
    · exact absurd (UInt8.le_trans hrange.1 hle) (by decide)
  · rintro rfl
    exact absurd hrange.1 (by decide)
  · rintro rfl
    exact absurd hrange.1 (by decide)

theorem digits_isSome (ds : List UInt8) (hc : isDigit c = false) (rest : List UInt8) :
    ∃ n, digits (ds ++ c :: rest) = some n := by
  rcases digits_cases (ds ++ c :: rest) with ⟨hall, -⟩ | ⟨_, _, _, -, -, -, hsome, -⟩
  · have hbad := hall c (List.mem_append_right _ List.mem_cons_self)
    rw [hc] at hbad
    cases hbad
  · exact ⟨_, hsome⟩

theorem atol_isSome_iff : (∃ i, atol text = some i) ↔ NumberEnds text := by
  constructor
  · rintro ⟨i, hi⟩
    rw [atol] at hi
    rcases span_cases isSpace text with ⟨-, hnil⟩ | ⟨space, c, rest, rfl, hspace, hc, hdrop, -⟩
    · rw [hnil] at hi
      cases hi
    rw [hdrop] at hi
    simp only at hi
    -- behind a sign, and without one
    have hsigned : ∀ {n : ℕ}, digits rest = some n → c = 45 ∨ c = 43 →
        NumberEnds (space ++ c :: rest) := by
      intro n hn hsign
      rcases digits_cases rest with ⟨-, hnone⟩ | ⟨ds, c', rest', rfl, hds, hc', -, -⟩
      · rw [hn] at hnone
        cases hnone
      · refine ⟨space, [c], ds, c', rest', rfl, hspace, Or.inr ?_, hds, hc', fun h => by cases h⟩
        rcases hsign with rfl | rfl
        · exact Or.inl rfl
        · exact Or.inr rfl
    by_cases hminus : c = 45
    · rw [if_pos hminus] at hi
      obtain ⟨n, hn, -⟩ := Option.map_eq_some_iff.1 hi
      exact hsigned hn (Or.inl hminus)
    rw [if_neg hminus] at hi
    obtain ⟨n, hn, -⟩ := Option.map_eq_some_iff.1 hi
    by_cases hplus : c = 43
    · rw [if_pos hplus] at hn
      exact hsigned hn (Or.inr hplus)
    rw [if_neg hplus] at hn
    rcases digits_cases (c :: rest) with ⟨-, hnone⟩ | ⟨ds, c', rest', heq, hds, hc', -, -⟩
    · rw [hn] at hnone
      cases hnone
    · refine ⟨space, [], ds, c', rest', by rw [heq, List.nil_append], hspace, Or.inl rfl, hds, hc', ?_⟩
      rintro - rfl
      obtain ⟨rfl, -⟩ := List.cons.inj heq
      exact ⟨hc, hminus, hplus⟩
  · rintro ⟨space, sign, ds, c, rest, rfl, hspace, hsign, hds, hc, hplain⟩
    obtain ⟨n, hn⟩ := digits_isSome ds hc rest
    rw [atol, List.dropWhile_append_of_pos hspace]
    rcases hsign with rfl | rfl | rfl
    · -- the first byte of the number is neither space nor a sign
      have hfirst : ∃ b more, ds ++ c :: rest = b :: more ∧ isSpace b = false ∧ b ≠ 45 ∧ b ≠ 43 := by
        cases ds with
        | nil => exact ⟨c, rest, rfl, hplain rfl rfl⟩
        | cons d ds =>
          exact ⟨d, ds ++ c :: rest, rfl, isSpace_of_isDigit (hds d List.mem_cons_self)⟩
      obtain ⟨b, more, heq, hspace', hminus, hplus⟩ := hfirst
      rw [heq] at hn
      rw [List.nil_append, heq, List.dropWhile_cons_of_neg (by rw [hspace']; decide)]
      simp only
      rw [if_neg hminus, if_neg hplus, hn]
      exact ⟨_, rfl⟩
    · rw [List.singleton_append, List.dropWhile_cons_of_neg (by decide)]
      simp only
      rw [if_pos trivial, hn]
      exact ⟨_, rfl⟩
    · rw [List.singleton_append, List.dropWhile_cons_of_neg (by decide)]
      simp only
      rw [if_neg (by decide), if_pos trivial, hn]
      exact ⟨_, rfl⟩

theorem fileSize_isSome_iff {payload : List UInt8} :
    (∃ n, fileSize payload = some n) ↔ NameAndNumberEnd payload := by
  constructor
  · rintro ⟨n, hn⟩
    rw [fileSize] at hn
    rcases span_cases (fun b => decide (b ≠ 0)) payload with
      ⟨-, hnil⟩ | ⟨name, c, text, rfl, hname, hc, hdrop, -⟩
    · rw [hnil] at hn
      cases hn
    rw [hdrop] at hn
    obtain ⟨i, hi, -⟩ := Option.map_eq_some_iff.1 hn
    obtain rfl : c = 0 := not_not.1 (of_decide_eq_false hc)
    exact ⟨name, text, rfl, fun b hb => of_decide_eq_true (hname b hb), atol_isSome_iff.1 ⟨i, hi⟩⟩
  · rintro ⟨name, text, rfl, hname, htext⟩
    obtain ⟨i, hi⟩ := atol_isSome_iff.2 htext
    rw [fileSize, List.dropWhile_append_of_pos fun b hb => decide_eq_true (hname b hb),
      List.dropWhile_cons_of_neg (by decide)]
    simp only
    rw [hi]
    exact ⟨_, rfl⟩

/-- The parser loads only bytes of the payload exactly when name and number end in it. -/
theorem loadsInside_iff_ends (h : LiesAt mem 0 text) :
    LoadsInside mem text.length ↔ NameAndNumberEnd text :=
  (loadsInside_iff h).trans fileSize_isSome_iff

end Loads

end RtThreadOta
