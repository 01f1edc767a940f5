import TreeQuery.Selector.Cursor
import TreeQuery.Proofs.SelectorTokens

/-!
# How the cursor moves

Every scanning call but a reset keeps the cursor on a character boundary and never moves it
backwards; a call that fails leaves it where it was.
-/

namespace TreeQuery.Selector

@[simp] theorem utf8Len_nil : utf8Len [] = 0 := rfl

@[simp] theorem utf8Len_cons (c : Char) (cs : List Char) :
    utf8Len (c :: cs) = c.utf8Size + utf8Len cs := rfl

@[simp] theorem utf8Len_append (xs ys : List Char) :
    utf8Len (xs ++ ys) = utf8Len xs + utf8Len ys := by
  induction xs with
  | nil => simp
  | cons c xs ih => simp [ih, Nat.add_assoc]

theorem utf8Len_eq_zero {cs : List Char} : utf8Len cs = 0 ↔ cs = [] := by
  cases cs with
  | nil => simp
  | cons c cs =>
    have := Char.utf8Size_pos c
    simp only [utf8Len_cons, reduceCtorEq, iff_false]
    omega

theorem utf8Len_le_of_suffix {xs ys : List Char} (h : xs <:+ ys) : utf8Len xs ≤ utf8Len ys := by
  obtain ⟨pre, rfl⟩ := h
  simp

/-- A byte offset falls between two characters exactly when it is the length of a part of the
text read from its start; the rest from there is what follows that part. -/
theorem restAt_eq_some_iff {input rest : List Char} {i : Nat} :
    restAt input i = some rest ↔ ∃ pre, input = pre ++ rest ∧ utf8Len pre = i := by
  induction input generalizing i with
  | nil =>
    cases i with
    | zero => simp [restAt, eq_comm]
    | succ n => simp [restAt]
  | cons c cs ih =>
    cases i with
    | zero =>
      simp only [restAt, Option.some.injEq, utf8Len_eq_zero]
      constructor
      · rintro rfl
        exact ⟨[], rfl, rfl⟩
      · rintro ⟨pre, h, rfl⟩
        simpa using h
    | succ n =>
      have hpos := Char.utf8Size_pos c
      rw [restAt]
      split
      · rw [ih]
        constructor
        · rintro ⟨pre, rfl, hpre⟩
          exact ⟨c :: pre, rfl, by simp only [utf8Len_cons]; omega⟩
        · rintro ⟨pre, h, hpre⟩
          cases pre with
          | nil => simp at hpre
          | cons d pre =>
            obtain ⟨rfl, rfl⟩ := List.cons.inj h
            exact ⟨pre, rfl, by simp only [utf8Len_cons] at hpre; omega⟩
      · rename_i hc
        simp only [reduceCtorEq, false_iff, not_exists, not_and]
        intro pre h hpre
        cases pre with
        | nil => simp at hpre
        | cons d pre =>
          obtain ⟨rfl, -⟩ := List.cons.inj h
          simp only [utf8Len_cons] at hpre
          omega

section Tokens

variable {eb : Char → Bool}

theorem EscapeEnd.isSuffix {after rest : List Char} (h : EscapeEnd eb after rest) :
    rest <:+ after := by
  cases h with
  | crlf rest => exact (List.suffix_cons _ _).trans (List.suffix_cons _ _)
  | blank => exact List.suffix_cons _ _
  | bare => exact List.suffix_refl _

theorem EscapeAt.isSuffix {input rest : List Char} {c : Char} (h : EscapeAt eb input c rest) :
    rest <:+ input := by
  cases h with
  | hex _ _ _ _ he => exact he.isSuffix.trans ((List.suffix_append _ _).trans (List.suffix_cons _ _))
  | char => exact (List.suffix_cons _ _).trans (List.suffix_cons _ _)

theorem UnitAt.isSuffix {accept : Char → Bool} {input rest : List Char} {c : Char}
    (h : UnitAt eb accept input c rest) : rest <:+ input := by
  cases h with
  | plain => exact List.suffix_cons _ _
  | escape he => exact he.isSuffix

theorem RunAt.isSuffix {accept : Char → Bool} {input cs rest : List Char}
    (h : RunAt eb accept input cs rest) : rest <:+ input := by
  induction h with
  | stop => exact List.suffix_refl _
  | unit hu _ ih => exact ih.trans hu.isSuffix

theorem IdentAt.isSuffix {input rest : List Char} {i : String} (h : IdentAt eb input i rest) :
    rest <:+ input := by
  cases h with
  | mk dash hu hr => exact hr.isSuffix.trans (hu.isSuffix.trans (List.suffix_append _ _))

theorem NameAt.isSuffix {input rest : List Char} {n : String} (h : NameAt eb input n rest) :
    rest <:+ input := by
  cases h with
  | mk hr _ => exact hr.isSuffix

theorem LineBreakAt.isSuffix {input rest : List Char} (h : LineBreakAt input rest) :
    rest <:+ input := by
  cases h with
  | crlf => exact (List.suffix_cons _ _).trans (List.suffix_cons _ _)
  | lf | cr | ff => exact List.suffix_cons _ _

theorem StringBodyAt.isSuffix {q : Char} {input cs rest : List Char}
    (h : StringBodyAt eb q input cs rest) : rest <:+ input := by
  induction h with
  | close => exact List.suffix_cons _ _
  | plain _ _ _ _ ih => exact ih.trans (List.suffix_cons _ _)
  | lineBreak hl _ ih => exact ih.trans (hl.isSuffix.trans (List.suffix_cons _ _))
  | escape he _ ih => exact ih.trans he.isSuffix

theorem StringAt.isSuffix {input rest : List Char} {s : String} (h : StringAt eb input s rest) :
    rest <:+ input := by
  cases h with
  | mk _ h => exact h.isSuffix.trans (List.suffix_cons _ _)

end Tokens

theorem identifier_suffix {cs rest : List Char} {i : String} (h : identifier cs = some (i, rest)) :
    rest <:+ cs :=
  (identifier_eq_some_iff.mp h).isSuffix

theorem name_suffix {cs rest : List Char} {n : String} (h : name cs = some (n, rest)) :
    rest <:+ cs :=
  (name_eq_some_iff.mp h).isSuffix

theorem quoted_suffix {cs rest : List Char} {s : String} (h : quoted cs = some (s, rest)) :
    rest <:+ cs :=
  (quoted_eq_some_iff.mp h).isSuffix

theorem nested_suffix {n : Nesting} {t : Char} {cs rest : List Char} {w : String}
    (h : nested n t cs = some (w, rest)) : rest <:+ cs := by
  obtain ⟨r, rfl, hcs, -⟩ := nested_frame h
  rw [hcs]
  exact List.suffix_append _ _

namespace Cursor

theorem position_eq {c : Cursor} {pre : List Char} (h : c.input = pre ++ c.rest) :
    c.position = utf8Len pre := by
  rw [position, h, utf8Len_append]
  omega

theorem restAt_position {c : Cursor} (hc : c.rest <:+ c.input) :
    restAt c.input c.position = some c.rest := by
  obtain ⟨pre, hpre⟩ := hc
  exact restAt_eq_some_iff.mpr ⟨pre, hpre.symm, (position_eq hpre.symm).symm⟩

theorem step_reset_position {c : Cursor} (hc : c.rest <:+ c.input) :
    c.step (.reset c.position) = some (.nothing, c) := by
  rw [step, restAt_position hc]
  rfl

theorem moveBy_forward {c c' : Cursor} {read : Option (String × List Char)} {r : ScanResult}
    (hread : ∀ v rest, read = some (v, rest) → rest <:+ c.rest) (h : c.moveBy read = (r, c')) :
    c'.input = c.input ∧ c'.rest <:+ c.rest ∧ (r = .text none ∨ r = .flag false → c' = c) := by
  cases hr : read with
  | none =>
    rw [hr, moveBy] at h
    cases h
    exact ⟨rfl, List.suffix_refl _, fun _ => rfl⟩
  | some p =>
    obtain ⟨v, rest⟩ := p
    rw [hr, moveBy] at h
    cases h
    refine ⟨rfl, hread v rest hr, ?_⟩
    rintro (h | h) <;> cases h

/-- A call other than a reset keeps the text and moves the cursor forward, never back; a call
that fails leaves the cursor where it was. -/
theorem step_forward {c c' : Cursor} {s : ScanStep} {r : ScanResult} (hs : ∀ p, s ≠ .reset p)
    (h : c.step s = some (r, c')) :
    c'.input = c.input ∧ c'.rest <:+ c.rest ∧ (r = .text none ∨ r = .flag false → c' = c) := by
  cases s with
  | identifier => exact moveBy_forward (fun _ _ => identifier_suffix) (Option.some.inj h)
  | name => exact moveBy_forward (fun _ _ => name_suffix) (Option.some.inj h)
  | string => exact moveBy_forward (fun _ _ => quoted_suffix) (Option.some.inj h)
  | nested n t => exact moveBy_forward (fun _ _ => nested_suffix) (Option.some.inj h)
  | skipBlanks =>
    cases h
    exact ⟨rfl, List.dropWhile_suffix _, by rintro (h | h) <;> cases h⟩
  | blanks min =>
    rw [step] at h
    split at h
    · cases h
      exact ⟨rfl, List.dropWhile_suffix _, by rintro (h | h) <;> cases h⟩
    · cases h
      exact ⟨rfl, List.suffix_refl _, fun _ => rfl⟩
  | eat ch =>
    rw [step] at h
    split at h
    · rename_i d r hrest
      split at h
      · cases h
        exact ⟨rfl, by rw [hrest]; exact List.suffix_cons _ _, by rintro (h | h) <;> cases h⟩
      · cases h
        exact ⟨rfl, List.suffix_refl _, fun _ => rfl⟩
    · cases h
      exact ⟨rfl, List.suffix_refl _, fun _ => rfl⟩
  | peek | atEnd | rest =>
    cases h
    exact ⟨rfl, List.suffix_refl _, fun _ => rfl⟩
  | reset p => exact absurd rfl (hs p)

theorem step_onBoundary {c c' : Cursor} {s : ScanStep} {r : ScanResult} (hc : c.rest <:+ c.input)
    (h : c.step s = some (r, c')) : c'.input = c.input ∧ c'.rest <:+ c'.input := by
  cases s with
  | reset p =>
    rw [step] at h
    obtain ⟨rest, hrest, hr⟩ := Option.map_eq_some_iff.mp h
    cases hr
    obtain ⟨pre, hpre, -⟩ := restAt_eq_some_iff.mp hrest
    exact ⟨rfl, ⟨pre, hpre.symm⟩⟩
  | _ =>
    obtain ⟨hi, hr, -⟩ := step_forward (fun _ he => by cases he) h
    exact ⟨hi, hi ▸ hr.trans hc⟩

theorem position_step {c c' : Cursor} {s : ScanStep} {r : ScanResult} (hc : c.rest <:+ c.input)
    (hs : ∀ p, s ≠ .reset p) (h : c.step s = some (r, c')) :
    c.position ≤ c'.position ∧ c'.position ≤ utf8Len c.input := by
  obtain ⟨hi, hr, -⟩ := step_forward hs h
  have hle := utf8Len_le_of_suffix hr
  have hin := utf8Len_le_of_suffix hc
  simp only [position, hi]
  omega

theorem run_positions {c : Cursor} {steps : List ScanStep} {out : List (ScanResult × Nat)}
    (hc : c.rest <:+ c.input) (h : c.run steps = some out) :
    ∀ x ∈ out, ∃ rest, restAt c.input x.2 = some rest := by
  induction steps generalizing c out with
  | nil =>
    cases h
    simp
  | cons s steps ih =>
    rw [run] at h
    obtain ⟨⟨r, c'⟩, hstep, h⟩ := Option.bind_eq_some_iff.mp h
    obtain ⟨more, hmore, h⟩ := Option.bind_eq_some_iff.mp h
    cases h
    obtain ⟨hi, hc'⟩ := step_onBoundary hc hstep
    intro x hx
    rcases List.mem_cons.mp hx with rfl | hx
    · exact ⟨c'.rest, hi ▸ restAt_position hc'⟩
    · exact hi ▸ ih hc' hmore x hx

end Cursor

theorem utf8EncodeChar_of_lt {c : Char} (hc : c.toNat < 128) :
    String.utf8EncodeChar c = [c.val.toUInt8] :=
  String.utf8EncodeChar_eq_singleton (Char.utf8Size_eq_one_iff.mpr (by
    rw [UInt32.le_iff_toNat_le]
    exact Nat.le_of_lt_succ hc))

theorem utf8Size_of_le {c : Char} (hc : 128 ≤ c.toNat) :
    c.utf8Size = 2 ∨ c.utf8Size = 3 ∨ c.utf8Size = 4 := by
  have h1 : c.utf8Size ≠ 1 := by
    rw [Ne, Char.utf8Size_eq_one_iff, UInt32.le_iff_toNat_le]
    exact Nat.not_le_of_lt hc
  have := Char.utf8Size_pos c
  have := Char.utf8Size_le_four c
  omega

theorem le_toNat_or_right (x y : UInt8) : y.toNat ≤ (x ||| y).toNat := by
  rw [UInt8.toNat_or]
  exact Nat.right_le_or

theorem utf8EncodeChar_high {c : Char} (hc : 128 ≤ c.toNat) :
    ∀ b ∈ String.utf8EncodeChar c, 128 ≤ b.toNat := by
  intro b hb
  -- each byte of a longer encoding is a masked piece or-ed with a marker of at least 0x80
  rcases utf8Size_of_le hc with h | h | h
  · rw [String.utf8EncodeChar_eq_cons_cons h] at hb
    simp only [List.mem_cons, List.not_mem_nil, or_false] at hb
    rcases hb with rfl | rfl <;> exact Nat.le_trans (by decide) (le_toNat_or_right _ _)
  · rw [String.utf8EncodeChar_eq_cons_cons_cons h] at hb
    simp only [List.mem_cons, List.not_mem_nil, or_false] at hb
    rcases hb with rfl | rfl | rfl <;> exact Nat.le_trans (by decide) (le_toNat_or_right _ _)
  · rw [String.utf8EncodeChar_eq_cons_cons_cons_cons h] at hb
    simp only [List.mem_cons, List.not_mem_nil, or_false] at hb
    rcases hb with rfl | rfl | rfl | rfl <;> exact Nat.le_trans (by decide) (le_toNat_or_right _ _)

theorem leadByte_of_lt {c : Char} (hc : c.toNat < 128) : leadByte c = c.toNat := by
  simp [leadByte, hc]

theorem nameByte_of_le {b : Nat} (hb : 128 ≤ b) : nameByte b = true := by
  simp [nameByte, nameStartByte, hb]

/-- A balanced scan from a position `i` between two characters either fails and leaves the
cursor there, or answers the text `w` up to the terminator and leaves the cursor on it,
`i + |w|` bytes in. Run again from the start of `w`, the terminator and any other text, it
answers `w` again: nothing past the terminator takes part in the scan. -/
theorem nested_scan_frame {input rest : List Char} {i : Nat} (hi : restAt input i = some rest)
    (n : Nesting) {t : Char} (ht : t.toNat < 128) :
    (∀ c', Cursor.step ⟨input, rest⟩ (.nested n t) = some (.text none, c') →
      c' = ⟨input, rest⟩) ∧
    ∀ w c', Cursor.step ⟨input, rest⟩ (.nested n t) = some (.text (some w), c') →
      c'.position = i + utf8Len w.toList ∧ c'.step .peek = some (.byte (some t.toNat), c') ∧
      ∀ u : String, (Cursor.start (w ++ String.singleton t ++ u)).step (.nested n t) =
        some (.text (some w), ⟨(w ++ String.singleton t ++ u).toList, t :: u.toList⟩) := by
  obtain ⟨pre, rfl, rfl⟩ := restAt_eq_some_iff.mp hi
  refine ⟨fun c' h => ((Cursor.step_forward (fun _ he => by cases he) h).2.2 (.inl rfl)), ?_⟩
  intro w c' h
  rw [Cursor.step] at h
  cases hn : nested n t rest with
  | none =>
    rw [hn, Cursor.moveBy] at h
    cases h
  | some p =>
    obtain ⟨v, after⟩ := p
    rw [hn, Cursor.moveBy] at h
    cases h
    obtain ⟨r, rfl, hrest, hframe⟩ := nested_frame hn
    refine ⟨?_, by simp [Cursor.step, leadByte_of_lt ht], fun u => ?_⟩
    · have hsplit : pre ++ rest = (pre ++ w.toList) ++ t :: r := by simp [hrest]
      rw [Cursor.position_eq hsplit]
      simp
    · have htext : (w ++ String.singleton t ++ u).toList = w.toList ++ t :: u.toList := by
        simp [String.toList_append]
      simp only [Cursor.start, Cursor.step, htext, hframe, Cursor.moveBy]

theorem nested_scan_frame_parens :
    let input := ['x', '(', 'y', ')', 'z', ')', 'w']
    let rest := ['(', 'y', ')', 'z', ')', 'w']
    restAt input 1 = some rest ∧ (')' : Char).toNat < 128 ∧
    (∀ c', Cursor.step ⟨input, rest⟩ (.nested argumentNesting ')') = some (.text none, c') →
      c' = ⟨input, rest⟩) ∧
    ∀ w c', Cursor.step ⟨input, rest⟩ (.nested argumentNesting ')') = some (.text (some w), c') →
      c'.position = 1 + utf8Len w.toList ∧ c'.step .peek = some (.byte (some (')' : Char).toNat), c') ∧
      ∀ u : String, (Cursor.start (w ++ String.singleton ')' ++ u)).step (.nested argumentNesting ')') =
        some (.text (some w), ⟨(w ++ String.singleton ')' ++ u).toList, ')' :: u.toList⟩) := by
  intro input rest
  have hi : restAt input 1 = some rest := by decide
  have ht : (')' : Char).toNat < 128 := by decide
  exact ⟨hi, ht, nested_scan_frame hi argumentNesting ht⟩

end TreeQuery.Selector
