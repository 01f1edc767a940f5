import TreeQuery.Selector.Render

/-!
# Written names and values read back

A written name reads back as an identifier giving the name again, and a written value as a
quoted string; only U+0000 does not come back.
-/

namespace TreeQuery.Selector

theorem hexValue_digitChar {k : Nat} (hk : k < 16) : hexValue (Nat.digitChar k) = some k := by
  have hall : ∀ k, k < 16 → hexValue (Nat.digitChar k) = some k := by decide
  exact hall k hk

theorem hexNumber_snoc (ds : List Char) (d : Char) :
    hexNumber (ds ++ [d]) = 16 * hexNumber ds + (hexValue d).getD 0 := by
  simp [hexNumber, List.foldl_append]

theorem toDigits_hex (n : Nat) :
    (∀ d ∈ Nat.toDigits 16 n, isHexDigit d = true) ∧ hexNumber (Nat.toDigits 16 n) = n := by
  induction n using Nat.strongRecOn with
  | ind n ih =>
    rw [Nat.toDigits_eq_if (by decide)]
    split
    · rename_i hn
      refine ⟨fun d hd => ?_, ?_⟩
      · rw [List.mem_singleton.mp hd, isHexDigit, hexValue_digitChar hn]
        rfl
      · simp [hexNumber, hexValue_digitChar hn]
    · rename_i hn
      obtain ⟨hdig, hnum⟩ := ih (n / 16) (by omega)
      have hmod : n % 16 < 16 := Nat.mod_lt n (by decide)
      refine ⟨fun d hd => ?_, ?_⟩
      · rcases List.mem_append.mp hd with hd | hd
        · exact hdig d hd
        · rw [List.mem_singleton.mp hd, isHexDigit, hexValue_digitChar hmod]
          rfl
      · rw [hexNumber_snoc, hnum, hexValue_digitChar hmod, Option.getD_some]
        omega

theorem toNat_valid (c : Char) : c.toNat < 0xd800 ∨ (0xdfff < c.toNat ∧ c.toNat < 0x110000) :=
  c.valid

theorem length_toDigits_toNat_le (c : Char) : (Nat.toDigits 16 c.toNat).length ≤ 6 := by
  have hv := toNat_valid c
  rw [Nat.length_toDigits_le_iff (by decide) (by decide)]
  have h6 : (16 : Nat) ^ 6 = 0x1000000 := by decide
  omega

theorem codePoint_toNat {c : Char} (hc : c ≠ '\x00') : codePoint c.toNat = c := by
  have hv := toNat_valid c
  have h0 : c.toNat ≠ 0 := by
    intro h
    apply hc
    rw [← Char.ofNat_toNat c, h]
  rw [codePoint, if_neg (by omega), Char.ofNat_toNat]

theorem not_lineBreak_of_isHexDigit {d : Char} (hd : isHexDigit d = true) :
    ¬ (d = '\n' ∨ d = '\r' ∨ d = '\x0c') := by
  rintro (rfl | rfl | rfl) <;> simp [isHexDigit, hexValue] at hd

theorem hexText_toList_cons (c : Char) :
    ∃ d t, (hexText c.toNat).toList = d :: t ∧ isHexDigit d = true := by
  rw [hexText, String.toList_ofList]
  obtain ⟨d, t, ht⟩ := List.exists_cons_of_ne_nil (Nat.toDigits_ne_nil (n := c.toNat) (b := 16))
  exact ⟨d, t, ht, (toDigits_hex c.toNat).1 d (by rw [ht]; exact List.mem_cons_self)⟩

theorem escape_hexText {c : Char} (hc : c ≠ '\x00') (rest : List Char) :
    escape ('\\' :: (hexText c.toNat).toList ++ ' ' :: rest) = some (c, rest) := by
  obtain ⟨hdig, hnum⟩ := toDigits_hex c.toNat
  have hlen := length_toDigits_toNat_le c
  rw [hexText, String.toList_ofList] at *
  obtain ⟨d, ds, hds⟩ := List.exists_cons_of_ne_nil (Nat.toDigits_ne_nil (n := c.toNat) (b := 16))
  rw [hds] at hdig hnum hlen
  have hd : isHexDigit d = true := hdig d List.mem_cons_self
  have hnl := not_lineBreak_of_isHexDigit hd
  -- the run of digits stops at the blank, within six digits
  have hrun : ((d :: (ds ++ ' ' :: rest)).takeWhile isHexDigit).take 6 = d :: ds := by
    rw [← List.cons_append, List.takeWhile_append_of_pos hdig,
      List.takeWhile_cons_of_neg (by decide), List.append_nil, List.take_of_length_le hlen]
  rw [hds]
  simp only [List.cons_append]
  rw [escape, if_neg hnl, if_pos hd]
  simp only [hrun, Option.some.injEq, Prod.mk.injEq]
  refine ⟨by rw [hnum]; exact codePoint_toNat hc, ?_⟩
  rw [← List.cons_append, List.drop_left]
  rfl

theorem nameCharText_toList (plain : Bool) (c : Char) :
    (nameCharText plain c).toList =
      if plain then [c]
      else if isGraphicAscii c && !isHexDigit c then ['\\', c]
      else '\\' :: (hexText c.toNat).toList ++ [' '] := by
  unfold nameCharText
  split
  · simp
  · split <;> simp

theorem escape_nameCharText {c : Char} (hc : c ≠ '\x00') (rest : List Char) :
    escape ((nameCharText false c).toList ++ rest) = some (c, rest) := by
  rw [nameCharText_toList, if_neg Bool.false_ne_true]
  split
  · rename_i hg
    simp only [Bool.and_eq_true, Bool.not_eq_true'] at hg
    -- a graphic character is no line break, and no digit here, so it is read as it stands
    have hnl : ¬ (c = '\n' ∨ c = '\r' ∨ c = '\x0c') := by
      rintro (rfl | rfl | rfl) <;> simp [isGraphicAscii] at hg
    simp only [List.cons_append, List.nil_append]
    rw [escape, if_neg hnl, if_neg (by simp [hg.2])]
  · rw [List.append_assoc, List.singleton_append]
    exact escape_hexText hc rest

theorem nameUnit_nameCharText (accept : Char → Bool) (hb : accept '\\' = false) {plain : Bool}
    {c : Char} (hp : plain = true → accept c = true) (hc : c ≠ '\x00') (rest : List Char) :
    nameUnit accept ((nameCharText plain c).toList ++ rest) = some (c, rest) := by
  cases plain with
  | true =>
    have ha := hp rfl
    have hcb : c ≠ '\\' := by
      rintro rfl
      rw [hb] at ha
      cases ha
    rw [nameCharText_toList, if_pos rfl]
    simp [nameUnit, hcb, ha]
  | false =>
    have hesc := escape_nameCharText hc rest
    obtain ⟨t, ht⟩ : ∃ t, (nameCharText false c).toList ++ rest = '\\' :: t := by
      rw [nameCharText_toList, if_neg Bool.false_ne_true]
      split <;> simp
    rw [ht] at hesc ⊢
    rw [nameUnit, if_pos rfl]
    exact hesc

theorem nameUnits_of_some {accept : Char → Bool} {cs rest : List Char} {c : Char}
    (h : nameUnit accept cs = some (c, rest)) :
    nameUnits accept cs = (c :: (nameUnits accept rest).1, (nameUnits accept rest).2) := by
  rw [nameUnits]
  split
  · rename_i c' rest' h'
    rw [h] at h'
    cases h'
    rfl
  · rename_i h'
    rw [h] at h'
    cases h'

theorem nameUnits_of_none {accept : Char → Bool} {cs : List Char} (h : nameUnit accept cs = none) :
    nameUnits accept cs = ([], cs) := by
  rw [nameUnits]
  split
  · rename_i c' rest' h'
    rw [h] at h'
    cases h'
  · rfl

/-- How the characters of a name after its first are written. -/
def nameRunText (cs : List Char) : List Char :=
  cs.flatMap fun c => (nameCharText (isNameChar c) c).toList

theorem nameUnits_nameRunText {cs : List Char} (hnul : '\x00' ∉ cs) {rest : List Char}
    (hstop : nameUnit isNameChar rest = none) :
    nameUnits isNameChar (nameRunText cs ++ rest) = (cs, rest) := by
  induction cs with
  | nil =>
    rw [nameRunText, List.flatMap_nil, List.nil_append, nameUnits_of_none hstop]
  | cons c cs ih =>
    have hc : c ≠ '\x00' := fun h => hnul (h ▸ List.mem_cons_self)
    have hcs : '\x00' ∉ cs := fun h => hnul (List.mem_cons_of_mem c h)
    have hunit := nameUnit_nameCharText isNameChar (by decide) id hc (nameRunText cs ++ rest)
    rw [nameRunText, List.flatMap_cons, List.append_assoc, ← nameRunText,
      nameUnits_of_some hunit, ih hcs]

theorem mapIdx_eq_map {α β : Type} {f : Nat → α → β} (g : α → β) (h : ∀ i a, f i a = g a)
    (l : List α) : l.mapIdx f = l.map g := by
  rw [List.mapIdx_eq_iff]
  intro j
  rw [List.getElem?_map]
  cases l[j]? <;> simp [h]

theorem identText_toList_of_dash {i : String} {c : Char} {cs : List Char}
    (h : i.toList = '-' :: c :: cs) :
    (identText i).toList = '-' :: ((nameCharText (isNameStart c) c).toList ++ nameRunText cs) := by
  simp only [identText, h, List.mapIdx_cons, String.toList_join]
  rw [mapIdx_eq_map (fun c => nameCharText (isNameChar c) c) (fun i c => by simp)]
  simp [nameRunText, List.flatMap_map, nameCharText, isNameChar, nameByte]

theorem identText_toList_of_start {i : String} {c : Char} {cs : List Char}
    (h : i.toList = c :: cs) (hd : ¬ (c = '-' ∧ cs ≠ [])) :
    (identText i).toList = (nameCharText (isNameStart c) c).toList ++ nameRunText cs := by
  simp only [identText, h, List.mapIdx_cons, String.toList_join]
  split
  · rename_i head tail heq
    simp only [List.cons.injEq] at heq
    exact absurd ⟨heq.1, by simp [heq.2]⟩ hd
  · rw [mapIdx_eq_map (fun c => nameCharText (isNameChar c) c) (fun i c => by simp)]
    simp [nameRunText, List.flatMap_map]

theorem isNameChar_of_isNameStart {c : Char} (h : isNameStart c = true) : isNameChar c = true := by
  unfold isNameStart at h
  simp [isNameChar, nameByte, h]

theorem nameCharText_head (plain : Bool) (c : Char) :
    ∃ t, (nameCharText plain c).toList = (if plain then c else '\\') :: t := by
  rw [nameCharText_toList]
  cases plain with
  | true => exact ⟨[], rfl⟩
  | false =>
    simp only [if_neg Bool.false_ne_true]
    split
    · exact ⟨[c], rfl⟩
    · exact ⟨_, rfl⟩

/-- A written identifier reads back as itself, up to a rest that cannot continue it. -/
theorem identifier_identText {i : String} (hne : i.toList ≠ []) (hnul : '\x00' ∉ i.toList)
    {rest : List Char} (hstop : nameUnit isNameChar rest = none) :
    identifier ((identText i).toList ++ rest) = some (i, rest) := by
  obtain ⟨c, cs, hi⟩ := List.exists_cons_of_ne_nil hne
  rw [hi] at hnul
  by_cases hd : c = '-' ∧ cs ≠ []
  · obtain ⟨rfl, hcs⟩ := hd
    obtain ⟨c2, cs2, rfl⟩ := List.exists_cons_of_ne_nil hcs
    have hc2 : c2 ≠ '\x00' := fun h => hnul (by simp [h])
    have hrun : '\x00' ∉ cs2 := fun h => hnul (by simp [h])
    have hunit := nameUnit_nameCharText isNameStart (by decide) id hc2 (nameRunText cs2 ++ rest)
    rw [identText_toList_of_dash hi, List.cons_append, List.append_assoc]
    simp only [identifier, hunit, nameUnits_nameRunText hrun hstop, List.singleton_append]
    rw [← hi, String.ofList_toList]
  · have hc : c ≠ '\x00' := fun h => hnul (by simp [h])
    have hrun : '\x00' ∉ cs := fun h => hnul (by simp [h])
    have hunit := nameUnit_nameCharText isNameStart (by decide) id hc (nameRunText cs ++ rest)
    obtain ⟨t, ht⟩ := nameCharText_head (isNameStart c) c
    rw [identText_toList_of_start hi hd, List.append_assoc]
    unfold identifier
    split
    rename_i dash body hdb
    split at hdb
    · -- the written text cannot start with a hyphen: a hyphen is no name start
      rename_i r heq
      rw [ht] at heq
      cases hs : isNameStart c
      · rw [hs] at heq
        simp at heq
      · rw [hs] at heq
        simp only [if_true, List.cons_append, List.cons.injEq] at heq
        rw [heq.1] at hs
        simp [isNameStart, nameStartByte] at hs
    · cases hdb
      simp only [List.nil_append, hunit, nameUnits_nameRunText hrun hstop]
      rw [← hi, String.ofList_toList]

theorem name_identText {i : String} (hne : i.toList ≠ []) (hnul : '\x00' ∉ i.toList)
    {rest : List Char} (hstop : nameUnit isNameChar rest = none) :
    name ((identText i).toList ++ rest) = some (i, rest) := by
  obtain ⟨c, cs, hi⟩ := List.exists_cons_of_ne_nil hne
  rw [hi] at hnul
  have hunits : nameUnits isNameChar ((identText i).toList ++ rest) = (c :: cs, rest) := by
    by_cases hd : c = '-' ∧ cs ≠ []
    · obtain ⟨rfl, hcs⟩ := hd
      obtain ⟨c2, cs2, rfl⟩ := List.exists_cons_of_ne_nil hcs
      have hc2 : c2 ≠ '\x00' := fun h => hnul (by simp [h])
      have hrun : '\x00' ∉ cs2 := fun h => hnul (by simp [h])
      have hdash : nameUnit isNameChar ('-' :: ((nameCharText (isNameStart c2) c2).toList ++
          (nameRunText cs2 ++ rest))) =
          some ('-', (nameCharText (isNameStart c2) c2).toList ++ (nameRunText cs2 ++ rest)) := by
        simp [nameUnit, isNameChar, nameByte]
      have hunit := nameUnit_nameCharText isNameChar (by decide) isNameChar_of_isNameStart hc2
        (nameRunText cs2 ++ rest)
      rw [identText_toList_of_dash hi, List.cons_append, List.append_assoc,
        nameUnits_of_some hdash, nameUnits_of_some hunit, nameUnits_nameRunText hrun hstop]
    · have hc : c ≠ '\x00' := fun h => hnul (by simp [h])
      have hrun : '\x00' ∉ cs := fun h => hnul (by simp [h])
      have hunit := nameUnit_nameCharText isNameChar (by decide) isNameChar_of_isNameStart hc
        (nameRunText cs ++ rest)
      rw [identText_toList_of_start hi hd, List.append_assoc, nameUnits_of_some hunit,
        nameUnits_nameRunText hrun hstop]
  unfold name
  rw [hunits]
  dsimp only
  rw [← hi, String.ofList_toList]

theorem valueCharText_toList (c : Char) :
    (valueCharText c).toList =
      if c = '"' ∨ c = '\\' then ['\\', c]
      else if isControl c then '\\' :: (hexText c.toNat).toList ++ [' ']
      else [c] := by
  unfold valueCharText
  split
  · simp
  · split <;> simp

/-- How the characters of a value are written between its quotes. -/
def valueText (cs : List Char) : List Char := cs.flatMap fun c => (valueCharText c).toList

theorem quotedText_toList (v : String) :
    (quotedText v).toList = '"' :: (valueText v.toList ++ ['"']) := by
  simp [quotedText, valueText, String.toList_join, List.flatMap_map]

theorem escape_literal {c : Char} (hnl : ¬ (c = '\n' ∨ c = '\r' ∨ c = '\x0c'))
    (hd : isHexDigit c = false) (rest : List Char) :
    escape ('\\' :: c :: rest) = some (c, rest) := by
  rw [escape, if_neg hnl, if_neg (by simp [hd])]

theorem not_lineBreak_of_not_control {c : Char} (hc : isControl c = false) :
    ¬ (c = '\n' ∨ c = '\r' ∨ c = '\x0c') := by
  rintro (rfl | rfl | rfl) <;> simp [isControl] at hc

theorem stringBody_cons_escape {q c : Char} {rest after s r : List Char} {d : Char}
    (hq : q ≠ '\\') (hnl : ¬ (c = '\r' ∨ c = '\n' ∨ c = '\x0c'))
    (he : escape ('\\' :: c :: rest) = some (d, after)) (hs : stringBody q after = some (s, r)) :
    stringBody q ('\\' :: c :: rest) = some (d :: s, r) := by
  rw [stringBody.eq_def]
  simp only [if_neg (Ne.symm hq), if_true]
  -- a line break after the backslash would continue the line instead
  split
  · rename_i h
    simp only [List.cons.injEq] at h
    exact absurd (.inl h.1) hnl
  · rename_i h
    simp only [List.cons.injEq] at h
    exact absurd (.inr (.inl h.1)) hnl
  · rename_i h
    simp only [List.cons.injEq] at h
    exact absurd (.inr (.inr h.1)) hnl
  · split
    · rename_i d' after' he'
      rw [he] at he'
      cases he'
      rw [hs]
      rfl
    · rename_i he'
      rw [he] at he'
      cases he'

theorem stringBody_cons_plain {q c : Char} {rest s r : List Char} (hq : c ≠ q) (hb : c ≠ '\\')
    (hnl : ¬ (c = '\n' ∨ c = '\r' ∨ c = '\x0c')) (hs : stringBody q rest = some (s, r)) :
    stringBody q (c :: rest) = some (c :: s, r) := by
  rw [stringBody.eq_def]
  simp only [if_neg hq, if_neg hb, if_neg hnl, hs]
  rfl

theorem stringBody_valueText {cs : List Char} (hnul : '\x00' ∉ cs) (rest : List Char) :
    stringBody '"' (valueText cs ++ '"' :: rest) = some (cs, rest) := by
  induction cs with
  | nil =>
    rw [valueText, List.flatMap_nil, List.nil_append, stringBody.eq_def]
    simp
  | cons c cs ih =>
    have hc : c ≠ '\x00' := fun h => hnul (h ▸ List.mem_cons_self)
    have ih' := ih (fun h => hnul (List.mem_cons_of_mem c h))
    rw [valueText, List.flatMap_cons, List.append_assoc, ← valueText, valueCharText_toList]
    split
    · -- a quote or a backslash, after a backslash
      rename_i hqb
      have hnl : ¬ (c = '\r' ∨ c = '\n' ∨ c = '\x0c') := by
        rcases hqb with rfl | rfl <;> decide
      have hnl' : ¬ (c = '\n' ∨ c = '\r' ∨ c = '\x0c') := by
        rcases hqb with rfl | rfl <;> decide
      have hd : isHexDigit c = false := by
        rcases hqb with rfl | rfl <;> decide
      exact stringBody_cons_escape (by decide) hnl (escape_literal hnl' hd _) ih'
    · split
      · -- a control character, by its code point
        rename_i hqb hctl
        have he := escape_hexText hc (valueText cs ++ '"' :: rest)
        obtain ⟨h0, t, ht, hh⟩ := hexText_toList_cons c
        have hnl : ¬ (h0 = '\r' ∨ h0 = '\n' ∨ h0 = '\x0c') := by
          have := not_lineBreak_of_isHexDigit hh
          rintro (h | h | h) <;> exact this (by simp [h])
        rw [ht] at he ⊢
        simp only [List.cons_append, List.append_assoc] at he ⊢
        exact stringBody_cons_escape (by decide) hnl he ih'
      · -- any other character, as it stands
        rename_i hqb hctl
        simp only [not_or] at hqb
        exact stringBody_cons_plain hqb.1 hqb.2
          (not_lineBreak_of_not_control (by simpa using hctl)) ih'

/-- A written value reads back as itself from its opening quote. -/
theorem quoted_quotedText {v : String} (hnul : '\x00' ∉ v.toList) (rest : List Char) :
    quoted ((quotedText v).toList ++ rest) = some (v, rest) := by
  rw [quotedText_toList, List.cons_append, List.append_assoc, List.singleton_append, quoted,
    if_pos (.inl rfl), stringBody_valueText hnul]
  simp [String.ofList_toList]

end TreeQuery.Selector
