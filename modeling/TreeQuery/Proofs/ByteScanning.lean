import TreeQuery.Selector.Bytes
import TreeQuery.Proofs.CursorSteps

namespace TreeQuery.Selector

/-- The UTF-8 bytes of a run of characters. -/
def utf8Bytes (cs : List Char) : List UInt8 := cs.flatMap String.utf8EncodeChar

@[simp] theorem utf8Bytes_nil : utf8Bytes [] = [] := rfl

@[simp] theorem utf8Bytes_cons (c : Char) (cs : List Char) :
    utf8Bytes (c :: cs) = String.utf8EncodeChar c ++ utf8Bytes cs := rfl

@[simp] theorem utf8Bytes_append (xs ys : List Char) :
    utf8Bytes (xs ++ ys) = utf8Bytes xs ++ utf8Bytes ys := List.flatMap_append

theorem length_utf8Bytes (cs : List Char) : (utf8Bytes cs).length = utf8Len cs := by
  induction cs with
  | nil => rfl
  | cons c cs ih => simp [ih]

theorem toNat_toUInt8_of_lt {c : Char} (hc : c.toNat < 128) : c.toUInt8.toNat = c.toNat := by
  show c.val.toUInt8.toNat = c.toNat
  rw [UInt32.toNat_toUInt8]
  exact Nat.mod_eq_of_lt (by simp only [Char.toNat] at hc; omega)

theorem toNat_toUInt8_lt {c : Char} (hc : c.toNat < 128) : c.toUInt8.toNat < 128 := by
  rw [toNat_toUInt8_of_lt hc]
  exact hc

theorem utf8Bytes_cons_of_lt {c : Char} (hc : c.toNat < 128) (cs : List Char) :
    utf8Bytes (c :: cs) = c.toUInt8 :: utf8Bytes cs := by
  rw [utf8Bytes_cons, utf8EncodeChar_of_lt hc]
  rfl

theorem utf8EncodeChar_of_le {c : Char} (hc : 128 ≤ c.toNat) :
    ∃ b bs, String.utf8EncodeChar c = b :: bs ∧ 0xC0 ≤ b.toNat ∧ ∀ x ∈ bs, 128 ≤ x.toNat := by
  have hcont : ∀ x ∈ (String.utf8EncodeChar c).tail, 128 ≤ x.toNat :=
    fun x hx => utf8EncodeChar_high hc x (List.mem_of_mem_tail hx)
  rcases utf8Size_of_le hc with h | h | h
  · rw [String.utf8EncodeChar_eq_cons_cons h] at hcont ⊢
    exact ⟨_, _, rfl, Nat.le_trans (by decide) (le_toNat_or_right _ _), hcont⟩
  · rw [String.utf8EncodeChar_eq_cons_cons_cons h] at hcont ⊢
    exact ⟨_, _, rfl, Nat.le_trans (by decide) (le_toNat_or_right _ _), hcont⟩
  · rw [String.utf8EncodeChar_eq_cons_cons_cons_cons h] at hcont ⊢
    exact ⟨_, _, rfl, Nat.le_trans (by decide) (le_toNat_or_right _ _), hcont⟩

theorem toUInt8_eq_iff {c : Char} (hc : c.toNat < 128) (d : Char) (hd : d.toNat < 128) :
    c.toUInt8 = d.toUInt8 ↔ c = d := by
  constructor
  · intro h
    have h' := congrArg UInt8.toNat h
    rw [toNat_toUInt8_of_lt hc, toNat_toUInt8_of_lt hd] at h'
    exact Char.toNat_inj.mp h'
  · rintro rfl
    rfl

theorem toUInt8_ne {c d : Char} (hc : c.toNat < 128) (hd : d.toNat < 128) (h : c ≠ d) :
    c.toUInt8 ≠ d.toUInt8 :=
  fun e => h ((toUInt8_eq_iff hc d hd).mp e)

theorem ne_of_le_toNat {b n : UInt8} (hb : 128 ≤ b.toNat) (hn : n.toNat < 128) : b ≠ n := by
  rintro rfl
  omega

theorem head?_utf8Bytes_eq_iff {cs : List Char} (d : Char) (hd : d.toNat < 128) :
    (utf8Bytes cs).head? = some d.toUInt8 ↔ cs.head? = some d := by
  cases cs with
  | nil => simp
  | cons c cs =>
    by_cases hc : c.toNat < 128
    · rw [utf8Bytes_cons_of_lt hc]
      simp only [List.head?_cons, Option.some.injEq]
      exact toUInt8_eq_iff hc d hd
    · obtain ⟨b, bs, he, hb, -⟩ := utf8EncodeChar_of_le (Nat.le_of_not_lt hc)
      rw [utf8Bytes_cons, he]
      simp only [List.cons_append, List.head?_cons, Option.some.injEq]
      have hne : c ≠ d := fun h => hc (h ▸ hd)
      have hbd : b ≠ d.toUInt8 := ne_of_le_toNat (by omega) (toNat_toUInt8_lt hd)
      exact ⟨fun h => absurd h hbd, fun h => absurd h hne⟩

theorem head?_utf8Bytes_ne {cs : List Char} {d : Char} (h : ∀ r, cs = d :: r → False)
    (hd : d.toNat < 128) : (utf8Bytes cs).head? ≠ some d.toUInt8 := fun e =>
  have ⟨r, hr⟩ := List.head?_eq_some_iff.mp ((head?_utf8Bytes_eq_iff d hd).mp e)
  h r hr

theorem startsChar_utf8Bytes (cs : List Char) : Bytes.startsChar (utf8Bytes cs) = true := by
  cases cs with
  | nil => rfl
  | cons c cs =>
    by_cases hc : c.toNat < 128
    · rw [utf8Bytes_cons_of_lt hc, Bytes.startsChar]
      have := toNat_toUInt8_of_lt hc
      simp only [Bool.or_eq_true, decide_eq_true_eq, UInt8.lt_iff_toNat_lt]
      left
      simp only [UInt8.reduceToNat]
      omega
    · obtain ⟨b, bs, he, hb, -⟩ := utf8EncodeChar_of_le (Nat.le_of_not_lt hc)
      rw [utf8Bytes_cons, he, List.cons_append, Bytes.startsChar]
      simp only [Bool.or_eq_true, decide_eq_true_eq, UInt8.le_iff_toNat_le]
      right
      simp only [UInt8.reduceToNat]
      omega

theorem peekChar_utf8Bytes_cons (c : Char) (cs : List Char) :
    Bytes.peekChar (utf8Bytes (c :: cs)) = some c := by
  rw [Bytes.peekChar, if_pos (startsChar_utf8Bytes _), utf8Bytes_cons, List.toByteArray_append,
    ByteArray.utf8DecodeChar?_utf8EncodeChar_append]

theorem drop_utf8Size_utf8Bytes (c : Char) (cs : List Char) :
    (utf8Bytes (c :: cs)).drop c.utf8Size = utf8Bytes cs :=
  List.drop_left' (String.length_utf8EncodeChar c)

theorem utf8Bytes_cons_eq (c : Char) (cs : List Char) :
    ∃ b tail, utf8Bytes (c :: cs) = b :: tail ∧ (∀ d : Char, d.toNat < 128 → (b = d.toUInt8 ↔ c = d)) ∧
      (128 ≤ c.toNat → 128 ≤ b.toNat) := by
  by_cases hc : c.toNat < 128
  · refine ⟨c.toUInt8, utf8Bytes cs, utf8Bytes_cons_of_lt hc cs, fun d hd => toUInt8_eq_iff hc d hd,
      fun h => absurd h (Nat.not_le_of_lt hc)⟩
  · obtain ⟨b, bs, he, hb, -⟩ := utf8EncodeChar_of_le (Nat.le_of_not_lt hc)
    have hbt : utf8Bytes (c :: cs) = b :: (bs ++ utf8Bytes cs) := by
      rw [utf8Bytes_cons, he, List.cons_append]
    refine ⟨b, bs ++ utf8Bytes cs, hbt, fun d hd => ?_, fun _ => by omega⟩
    have := @head?_utf8Bytes_eq_iff (c :: cs) d hd
    rw [hbt] at this
    simpa using this

theorem toNat_ofNat_of_lt {n : Nat} (hn : n < 0xD800) : (Char.ofNat n).toNat = n := by
  have hv : n.isValidChar := Or.inl hn
  have h : Char.ofNat n = Char.ofNatAux n hv := dif_pos hv
  rw [h]
  rfl

theorem hexValue_eq_none_of_le {c : Char} (hc : 128 ≤ c.toNat) : hexValue c = none := by
  have h : c.toNat = c.val.toNat := rfl
  simp only [hexValue, Char.le_def, UInt32.le_iff_toNat_le]
  have h9 : ('9' : Char).val.toNat = 57 := rfl
  have hf : ('f' : Char).val.toNat = 102 := rfl
  have hF : ('F' : Char).val.toNat = 70 := rfl
  rw [if_neg (by omega), if_neg (by omega), if_neg (by omega)]

theorem lt_of_isHexDigit {c : Char} (h : isHexDigit c = true) : c.toNat < 128 := by
  by_contra hc
  rw [isHexDigit, hexValue_eq_none_of_le (by omega)] at h
  cases h

theorem hexByte_toUInt8 {c : Char} (hc : c.toNat < 128) : Bytes.hexByte c.toUInt8 = hexValue c := by
  rw [Bytes.hexByte, toNat_toUInt8_of_lt hc, Char.ofNat_toNat]

theorem hexByte_of_le {b : UInt8} (hb : 128 ≤ b.toNat) : Bytes.hexByte b = none := by
  have hlt := b.toNat_lt
  rw [Bytes.hexByte]
  exact hexValue_eq_none_of_le (by rw [toNat_ofNat_of_lt (by omega)]; exact hb)

theorem hexByte_first {c : Char} {b : UInt8} (hfirst : ∀ d : Char, d.toNat < 128 → (b = d.toUInt8 ↔ c = d))
    (hhigh : 128 ≤ c.toNat → 128 ≤ b.toNat) : Bytes.hexByte b = hexValue c := by
  by_cases hc : c.toNat < 128
  · rw [(hfirst c hc).mpr rfl, hexByte_toUInt8 hc]
  · rw [hexByte_of_le (hhigh (by omega)), hexValue_eq_none_of_le (by omega)]

theorem hexDigits_utf8Bytes (n code : Nat) (cs : List Char) :
    Bytes.hexDigits n code (utf8Bytes cs) =
      (((cs.takeWhile isHexDigit).take n).foldl (fun acc d => 16 * acc + (hexValue d).getD 0) code,
        utf8Bytes (cs.drop ((cs.takeWhile isHexDigit).take n).length)) := by
  induction n generalizing code cs with
  | zero => simp [Bytes.hexDigits]
  | succ n ih =>
    cases cs with
    | nil => simp [Bytes.hexDigits]
    | cons c cs =>
      obtain ⟨b, tail, hbt, hfirst, hhigh⟩ := utf8Bytes_cons_eq c cs
      rw [hbt, Bytes.hexDigits, hexByte_first hfirst hhigh]
      rw [List.takeWhile_cons]
      cases hv : hexValue c with
      | none =>
        have hx : isHexDigit c = false := by simp [isHexDigit, hv]
        simp [hx, hbt]
      | some v =>
        have hx : isHexDigit c = true := by simp [isHexDigit, hv]
        have hc := lt_of_isHexDigit hx
        have htail : tail = utf8Bytes cs := by
          rw [utf8Bytes_cons_of_lt hc] at hbt
          exact (List.cons.inj hbt).2.symm
        simp only [hx, if_true, List.take_succ_cons, List.foldl_cons, hv, Option.getD_some,
          List.length_cons, List.drop_succ_cons]
        rw [htail, ih]

theorem blankByte_of_le {n : Nat} (hn : 128 ≤ n) : blankByte n = false := by
  simp only [blankByte, Bool.or_eq_false_iff, beq_eq_false_iff_ne, Bool.and_eq_false_imp,
    decide_eq_true_eq, decide_eq_false_iff_not]
  omega

theorem dropEscapeBlank_cons_of_ne {c : Char} (hc : c ≠ '\r') (cs : List Char) :
    dropEscapeBlank (c :: cs) = if isBlank c then cs else c :: cs := by
  rw [dropEscapeBlank]
  intro rest hcr _
  exact hc hcr

theorem dropEscapeBlank_cr_of_ne {d : Char} (hd : d ≠ '\n') (cs : List Char) :
    dropEscapeBlank ('\r' :: d :: cs) = d :: cs := by
  rw [dropEscapeBlank]
  · rfl
  · intro rest _ h
    cases h
    exact hd rfl

theorem dropEscapeBlank_utf8Bytes (cs : List Char) :
    Bytes.dropEscapeBlank (utf8Bytes cs) = utf8Bytes (dropEscapeBlank cs) := by
  cases cs with
  | nil => rfl
  | cons c cs =>
    by_cases hc : c.toNat < 128
    · rw [utf8Bytes_cons_of_lt hc]
      by_cases hcr : c = '\r'
      · subst hcr
        cases cs with
        | nil => rfl
        | cons d cs =>
          by_cases hlf : d = '\n'
          · subst hlf
            rw [utf8Bytes_cons_of_lt (by decide)]
            rfl
          · obtain ⟨b, tail, hbt, hfirst, -⟩ := utf8Bytes_cons_eq d cs
            have hb : b ≠ 10 := fun h => hlf ((hfirst '\n' (by decide)).mp h)
            rw [dropEscapeBlank_cr_of_ne hlf, hbt, Bytes.dropEscapeBlank, if_neg (by simp [hb]), if_pos (by rfl)]
            rfl
      · have hb : c.toUInt8 ≠ 13 := fun h => hcr ((toUInt8_eq_iff hc '\r' (by decide)).mp h)
        have hblank : blankByte c.toNat = isBlank c := rfl
        rw [Bytes.dropEscapeBlank, if_neg (by simp [hb]), dropEscapeBlank_cons_of_ne hcr]
        simp only [List.getElem?_cons_zero, Option.map_some, Option.some.injEq,
          toNat_toUInt8_of_lt hc, hblank]
        cases isBlank c
        · simp [utf8Bytes_cons_of_lt hc]
        · rfl
    · obtain ⟨b, tail, hbt, -, hhigh⟩ := utf8Bytes_cons_eq c cs
      have hb := hhigh (by omega)
      have hcr : c ≠ '\r' := fun h => hc (h ▸ by decide)
      have hb13 : b ≠ 13 := ne_of_le_toNat hb (by decide)
      rw [hbt, Bytes.dropEscapeBlank, if_neg (by simp [hb13]), dropEscapeBlank_cons_of_ne hcr,
        isBlank, blankByte_of_le (by omega)]
      simp [blankByte_of_le hb, hbt]

/-- Reading an escape from the bytes of a text reads the escape from its characters and gives
the bytes of the character it stands for. -/
theorem escape_utf8Bytes (cs : List Char) :
    Bytes.escape (utf8Bytes cs) =
      (escape cs).map fun p => (String.utf8EncodeChar p.1, utf8Bytes p.2) := by
  cases cs with
  | nil => rfl
  | cons c rest =>
    by_cases hc : c = '\\'
    swap
    · obtain ⟨b, tail, hbt, hfirst, -⟩ := utf8Bytes_cons_eq c rest
      have hb : b ≠ 92 := fun h => hc ((hfirst '\\' (by decide)).mp h)
      have hchar : escape (c :: rest) = none := by
        cases rest <;> simp [escape, hc]
      rw [hbt, hchar]
      unfold Bytes.escape
      dsimp only
      rw [if_pos hb]
      rfl
    subst hc
    rw [utf8Bytes_cons_of_lt (by decide)]
    cases rest with
    | nil => rfl
    | cons d more =>
      obtain ⟨b, tail, hbt, hfirst, hhigh⟩ := utf8Bytes_cons_eq d more
      have h10 : b = 10 ↔ d = '\n' := hfirst '\n' (by decide)
      have h13 : b = 13 ↔ d = '\r' := hfirst '\r' (by decide)
      have h12 : b = 12 ↔ d = '\x0c' := hfirst '\x0c' (by decide)
      have hhex : (Bytes.hexByte b).isSome = isHexDigit d := by rw [hexByte_first hfirst hhigh]; rfl
      rw [hbt, Bytes.escape, if_neg (by decide), escape]
      dsimp only
      by_cases hn : d = '\n' ∨ d = '\r' ∨ d = '\x0c'
      · rw [if_pos (by rwa [h10, h13, h12]), if_pos hn]
        rfl
      rw [if_neg (by rwa [h10, h13, h12]), if_neg hn, hhex]
      by_cases hx : isHexDigit d = true
      · -- a hexadecimal escape reads the same digits and the same blank after them
        rw [if_pos hx, if_pos hx, ← hbt, hexDigits_utf8Bytes, dropEscapeBlank_utf8Bytes]
        rfl
      · rw [if_neg hx, if_neg hx, ← hbt, peekChar_utf8Bytes_cons]
        dsimp only
        rw [drop_utf8Size_utf8Bytes]
        rfl

theorem utf8Bytes_backslash (rest : List Char) : utf8Bytes ('\\' :: rest) = 92 :: utf8Bytes rest :=
  utf8Bytes_cons_of_lt (by decide) rest

theorem backslash_toUInt8_ne {q : Char} (hq : q.toNat < 128) (hb : '\\' ≠ q) :
    (92 : UInt8) ≠ q.toUInt8 :=
  toUInt8_ne (by decide) hq hb

theorem escape_backslash_utf8Bytes (rest : List Char) :
    Bytes.escape (92 :: utf8Bytes rest) =
      (escape ('\\' :: rest)).map fun p => (String.utf8EncodeChar p.1, utf8Bytes p.2) := by
  rw [← utf8Bytes_backslash]
  exact escape_utf8Bytes _

namespace Bytes

theorem nameChars_of_some {accept : Nat → Bool} {bs out rest : List UInt8}
    (h : nameChar accept bs = some (out, rest)) :
    nameChars accept bs = (out ++ (nameChars accept rest).1, (nameChars accept rest).2) := by
  rw [nameChars]
  split
  · rename_i out' rest' h'
    rw [h] at h'
    cases h'
    rfl
  · rename_i h'
    rw [h] at h'
    cases h'

theorem nameChars_of_none {accept : Nat → Bool} {bs : List UInt8} (h : nameChar accept bs = none) :
    nameChars accept bs = ([], bs) := by
  rw [nameChars]
  split
  · rename_i out' rest' h'
    rw [h] at h'
    cases h'
  · rfl

theorem nameChars_high_append {accept : Nat → Bool} (hacc : ∀ n, 128 ≤ n → accept n = true)
    {xs : List UInt8} (hx : ∀ x ∈ xs, 128 ≤ x.toNat) (bs : List UInt8) :
    nameChars accept (xs ++ bs) = (xs ++ (nameChars accept bs).1, (nameChars accept bs).2) := by
  induction xs with
  | nil => rfl
  | cons x xs ih =>
    have hx0 := hx x List.mem_cons_self
    have hstep : nameChar accept (x :: (xs ++ bs)) = some ([x], xs ++ bs) := by
      rw [nameChar, if_neg (ne_of_le_toNat hx0 (by decide)), if_pos (hacc _ hx0)]
    rw [List.cons_append, nameChars_of_some hstep, ih fun y hy => hx y (List.mem_cons_of_mem x hy)]
    rfl

end Bytes

theorem nameChar_utf8Bytes_of_le {accept : Nat → Bool} (hacc : ∀ n, 128 ≤ n → accept n = true)
    {c : Char} (hc : 128 ≤ c.toNat) (cs : List Char) :
    ∃ b bs, String.utf8EncodeChar c = b :: bs ∧ Bytes.nameChar accept (utf8Bytes (c :: cs)) =
      some ([b], bs ++ utf8Bytes cs) ∧ ∀ x ∈ bs, 128 ≤ x.toNat := by
  obtain ⟨b, bs, he, hb, hbs⟩ := utf8EncodeChar_of_le hc
  refine ⟨b, bs, he, ?_, hbs⟩
  rw [utf8Bytes_cons, he, List.cons_append, Bytes.nameChar, if_neg (ne_of_le_toNat (by omega) (by decide)),
    if_pos (hacc _ (by omega))]

theorem nameChar_utf8Bytes_of_lt {accept : Nat → Bool} {c : Char} (hc : c.toNat < 128)
    (cs : List Char) :
    Bytes.nameChar accept (utf8Bytes (c :: cs)) =
      (nameUnit (fun d => accept d.toNat) (c :: cs)).map
        fun p => (String.utf8EncodeChar p.1, utf8Bytes p.2) := by
  have hesc := escape_utf8Bytes (c :: cs)
  rw [utf8Bytes_cons_of_lt hc] at hesc ⊢
  have h92 : c.toUInt8 = 92 ↔ c = '\\' := toUInt8_eq_iff hc '\\' (by decide)
  rw [Bytes.nameChar, nameUnit]
  by_cases hb : c = '\\'
  · rw [if_pos (h92.mpr hb), if_pos hb, hesc]
  · rw [if_neg (fun h => hb (h92.mp h)), if_neg hb, toNat_toUInt8_of_lt hc]
    cases accept c.toNat
    · rfl
    · simp [utf8EncodeChar_of_lt hc]

/-- Reading name characters from the bytes of a text reads the name characters in front, for a
test that takes every byte with the high bit set. -/
theorem nameChars_utf8Bytes {accept : Nat → Bool} (hacc : ∀ n, 128 ≤ n → accept n = true)
    (cs : List Char) :
    Bytes.nameChars accept (utf8Bytes cs) =
      (utf8Bytes (nameUnits (fun d => accept d.toNat) cs).1,
        utf8Bytes (nameUnits (fun d => accept d.toNat) cs).2) := by
  -- on the length of the text, since an escape reads several characters
  induction hn : cs.length using Nat.strong_induction_on generalizing cs with
  | _ n ih =>
    cases cs with
    | nil =>
      rw [utf8Bytes_nil, Bytes.nameChars_of_none rfl, nameUnits_of_none rfl]
      rfl
    | cons c rest =>
      by_cases hc : c.toNat < 128
      · cases hu : nameUnit (fun d => accept d.toNat) (c :: rest) with
        | none =>
          have hb := @nameChar_utf8Bytes_of_lt accept c hc rest
          rw [hu] at hb
          rw [Bytes.nameChars_of_none hb, nameUnits_of_none hu]
          rfl
        | some p =>
          obtain ⟨d, r⟩ := p
          have hb := @nameChar_utf8Bytes_of_lt accept c hc rest
          rw [hu] at hb
          have hlt := nameUnit_shorter hu
          rw [Bytes.nameChars_of_some hb, nameUnits_of_some hu, ih r.length (hn ▸ hlt) r rfl]
          rfl
      · obtain ⟨b, bs, he, hb, hbs⟩ := nameChar_utf8Bytes_of_le hacc (Nat.le_of_not_lt hc) rest
        have hu : nameUnit (fun d => accept d.toNat) (c :: rest) = some (c, rest) := by
          have hne : c ≠ '\\' := fun h => hc (h ▸ by decide)
          rw [nameUnit, if_neg hne, if_pos (hacc _ (by omega))]
        rw [Bytes.nameChars_of_some hb, Bytes.nameChars_high_append hacc hbs, nameUnits_of_some hu,
          ih rest.length (by simp [← hn]) rest rfl, utf8Bytes_cons, he]
        rfl

theorem nameStart_utf8Bytes (body : List Char) :
    (Bytes.nameChar nameStartByte (utf8Bytes body) = none ↔ nameUnit isNameStart body = none) ∧
    ∀ c r, nameUnit isNameStart body = some (c, r) →
      ∃ out rest, Bytes.nameChar nameStartByte (utf8Bytes body) = some (out, rest) ∧
        out ++ (Bytes.nameChars nameByte rest).1 = utf8Bytes (c :: (nameUnits isNameChar r).1) ∧
        (Bytes.nameChars nameByte rest).2 = utf8Bytes (nameUnits isNameChar r).2 := by
  have hchars := nameChars_utf8Bytes (fun _ => nameByte_of_le)
  cases body with
  | nil => exact ⟨by simp [Bytes.nameChar, nameUnit], fun c r h => by simp [nameUnit] at h⟩
  | cons c rest =>
    by_cases hc : c.toNat < 128
    · have hb := @nameChar_utf8Bytes_of_lt nameStartByte c hc rest
      refine ⟨by rw [hb, Option.map_eq_none_iff]; exact Iff.rfl, fun d r hu => ?_⟩
      rw [show (fun d : Char => nameStartByte d.toNat) = isNameStart from rfl, hu] at hb
      exact ⟨_, _, hb, by rw [hchars]; rfl, by rw [hchars]; rfl⟩
    · -- outside ASCII the first byte starts the name and the rest of the character follows
      have hacc : ∀ n, 128 ≤ n → nameStartByte n = true := fun n hn => by
        simp [nameStartByte, hn]
      obtain ⟨b, bs, he, hb, hbs⟩ := nameChar_utf8Bytes_of_le hacc (Nat.le_of_not_lt hc) rest
      have hu : nameUnit isNameStart (c :: rest) = some (c, rest) := by
        have hne : c ≠ '\\' := fun h => hc (h ▸ by decide)
        have hs : isNameStart c = true := hacc c.toNat (by omega)
        rw [nameUnit, if_neg hne, if_pos hs]
      refine ⟨by rw [hb, hu]; simp, fun d r hdr => ?_⟩
      rw [hu] at hdr
      cases hdr
      refine ⟨_, _, hb, ?_, ?_⟩
      · rw [Bytes.nameChars_high_append (fun _ => nameByte_of_le) hbs, hchars, utf8Bytes_cons, he]
        rfl
      · rw [Bytes.nameChars_high_append (fun _ => nameByte_of_le) hbs, hchars]
        rfl

theorem Bytes.identifier_eq_map (bs : List UInt8) :
    Bytes.identifier bs =
      (Bytes.nameChar nameStartByte (if bs.head? = some 45 then bs.drop 1 else bs)).map fun p =>
        ((if bs.head? = some 45 then [45] else []) ++ p.1 ++ (Bytes.nameChars nameByte p.2).1,
          (Bytes.nameChars nameByte p.2).2) := by
  unfold Bytes.identifier
  by_cases h : bs.head? = some 45
  · rw [if_pos h, if_pos h, if_pos h]
    dsimp only
    cases Bytes.nameChar nameStartByte (bs.drop 1) <;> rfl
  · rw [if_neg h, if_neg h, if_neg h]
    dsimp only
    cases Bytes.nameChar nameStartByte bs <;> rfl

theorem identAfter_utf8Bytes (dash body : List Char) :
    (Bytes.nameChar nameStartByte (utf8Bytes body)).map (fun p =>
        (utf8Bytes dash ++ p.1 ++ (Bytes.nameChars nameByte p.2).1, (Bytes.nameChars nameByte p.2).2)) =
      (identAfter dash body).map fun p => (utf8Bytes p.1.toList, utf8Bytes p.2) := by
  obtain ⟨hnone, hsome⟩ := nameStart_utf8Bytes body
  cases hu : nameUnit isNameStart body with
  | none => rw [hnone.mpr hu, identAfter, hu]; rfl
  | some p =>
    obtain ⟨c, r⟩ := p
    obtain ⟨out, rest, hb, hout, hafter⟩ := hsome c r hu
    rw [hb, identAfter, hu]
    simp only [Option.map_some, String.toList_ofList, utf8Bytes_append, List.append_assoc, hout, hafter]

theorem identifier_utf8Bytes (cs : List Char) :
    Bytes.identifier (utf8Bytes cs) =
      (identifier cs).map fun p => (utf8Bytes p.1.toList, utf8Bytes p.2) := by
  rw [Bytes.identifier_eq_map]
  by_cases hd : ∃ r, cs = '-' :: r
  · obtain ⟨r, rfl⟩ := hd
    have h45 : (utf8Bytes ('-' :: r)).head? = some 45 := by rw [utf8Bytes_cons_of_lt (by decide)]; rfl
    rw [if_pos h45, if_pos h45, identifier_dash, ← identAfter_utf8Bytes, utf8Bytes_cons_of_lt (by decide)]
    rfl
  · have h45 : (utf8Bytes cs).head? ≠ some 45 := fun h => by
      obtain ⟨r, hr⟩ := List.head?_eq_some_iff.mp ((head?_utf8Bytes_eq_iff '-' (by decide)).mp h)
      exact hd ⟨r, hr⟩
    rw [if_neg h45, if_neg h45, identifier_of_not_dash fun r hr => hd ⟨r, hr⟩, ← identAfter_utf8Bytes]
    rfl

theorem name_utf8Bytes (cs : List Char) :
    Bytes.name (utf8Bytes cs) = (name cs).map fun p => (utf8Bytes p.1.toList, utf8Bytes p.2) := by
  unfold Bytes.name name
  rw [nameChars_utf8Bytes (fun _ => nameByte_of_le),
    show (fun d : Char => nameByte d.toNat) = isNameChar from rfl]
  generalize nameUnits isNameChar cs = u
  obtain ⟨units, after⟩ := u
  cases units with
  | nil => rfl
  | cons c more =>
    obtain ⟨b, tail, hbt, -⟩ := utf8Bytes_cons_eq c more
    dsimp only
    rw [hbt, Option.map_some, String.toList_ofList, hbt]

theorem dropLineFeed_utf8Bytes (cs : List Char) :
    Bytes.dropLineFeed (utf8Bytes cs) = utf8Bytes (dropLineFeed cs) := by
  by_cases h : cs.head? = some '\n'
  · obtain ⟨r, rfl⟩ := List.head?_eq_some_iff.mp h
    rw [utf8Bytes_cons_of_lt (by decide)]
    rfl
  · have h10 : (utf8Bytes cs).head? ≠ some 10 :=
      fun e => h ((head?_utf8Bytes_eq_iff '\n' (by decide)).mp e)
    rw [Bytes.dropLineFeed, if_neg h10, dropLineFeed_of_head h]

namespace Bytes

section Strings

variable {q : UInt8} {rest : List UInt8}

theorem stringBody_self (rest : List UInt8) : stringBody q (q :: rest) = some ([], rest) := by
  rw [stringBody, if_pos rfl]

theorem stringBody_crlf (hq : 92 ≠ q) (rest : List UInt8) :
    stringBody q (92 :: 13 :: rest) = stringBody q (dropLineFeed rest) := by
  rw [stringBody, if_neg hq, if_pos rfl]
  simp

theorem stringBody_lineBreak {b : UInt8} (hq : 92 ≠ q) (hb : b = 10 ∨ b = 12) (rest : List UInt8) :
    stringBody q (92 :: b :: rest) = stringBody q rest := by
  have h13 : b ≠ 13 := by rcases hb with rfl | rfl <;> decide
  rw [stringBody, if_neg hq, if_pos rfl, if_neg (by simpa using h13),
    if_pos (by simpa using hb)]
  rfl

theorem stringBody_escape (hq : 92 ≠ q) (hcr : rest.head? ≠ some 13)
    (hnl : ¬ (rest.head? = some 10 ∨ rest.head? = some 12)) :
    stringBody q (92 :: rest) =
      (escape (92 :: rest)).bind fun p => (stringBody q p.2).map fun s => (p.1 ++ s.1, s.2) := by
  rw [stringBody, if_neg hq, if_pos rfl, if_neg hcr, if_neg hnl]
  split <;> rename_i h
  · conv_rhs => rw [h]
    rfl
  · conv_rhs => rw [h]
    rfl

theorem stringBody_plain {b : UInt8} (hq : b ≠ q) (hb : b ≠ 92) (hnl : ¬ (b = 10 ∨ b = 13 ∨ b = 12))
    (rest : List UInt8) : stringBody q (b :: rest) = (stringBody q rest).map fun p => (b :: p.1, p.2) := by
  rw [stringBody, if_neg hq, if_neg hb, if_neg hnl]

theorem stringBody_lineFeed {b : UInt8} (hq : b ≠ q) (hb : b ≠ 92) (hnl : b = 10 ∨ b = 13 ∨ b = 12)
    (rest : List UInt8) : stringBody q (b :: rest) = none := by
  rw [stringBody, if_neg hq, if_neg hb, if_pos hnl]

theorem stringBody_high_append (hq : q.toNat < 128) {xs : List UInt8} (hx : ∀ x ∈ xs, 128 ≤ x.toNat)
    (bs : List UInt8) : stringBody q (xs ++ bs) = (stringBody q bs).map fun p => (xs ++ p.1, p.2) := by
  induction xs with
  | nil => simp
  | cons x xs ih =>
    have hx0 := hx x List.mem_cons_self
    have hnl : ¬ (x = 10 ∨ x = 13 ∨ x = 12) := by
      rintro (rfl | rfl | rfl) <;> simp at hx0
    rw [List.cons_append, stringBody_plain (ne_of_le_toNat hx0 hq) (ne_of_le_toNat hx0 (by decide)) hnl,
      ih fun y hy => hx y (List.mem_cons_of_mem x hy), Option.map_map]
    rfl

end Strings

end Bytes

section StringSteps

variable {q : Char} {rest : List Char}

theorem stringBody_plain_map {c : Char} (hcq : c ≠ q) (hcb : c ≠ '\\')
    (hnl : ¬ (c = '\n' ∨ c = '\r' ∨ c = '\x0c')) :
    stringBody q (c :: rest) = (stringBody q rest).map fun p => (c :: p.1, p.2) := by
  rw [stringBody.eq_def]
  simp only [if_neg hcq, if_neg hcb, if_neg hnl]

theorem stringBody_lineBreak_none {c : Char} (hcq : c ≠ q) (hcb : c ≠ '\\')
    (hnl : c = '\n' ∨ c = '\r' ∨ c = '\x0c') : stringBody q (c :: rest) = none := by
  rw [stringBody.eq_def]
  simp only [if_neg hcq, if_neg hcb, if_pos hnl]

theorem stringBody_escape_map (hb : ¬ '\\' = q) (hcr : ∀ after, rest = '\r' :: after → False)
    (hlf : ∀ after, rest = '\n' :: after → False) (hff : ∀ after, rest = '\x0c' :: after → False) :
    stringBody q ('\\' :: rest) =
      (escape ('\\' :: rest)).bind fun p => (stringBody q p.2).map fun s => (p.1 :: s.1, s.2) := by
  rw [stringBody.eq_5 _ _ _ hcr hlf hff, if_neg hb, if_pos rfl]
  split <;> rename_i h
  · conv_rhs => rw [h]
    rfl
  · conv_rhs => rw [h]
    rfl

theorem head?_utf8Bytes_noBreak (hcr : ∀ after, rest = '\r' :: after → False)
    (hlf : ∀ after, rest = '\n' :: after → False) (hff : ∀ after, rest = '\x0c' :: after → False) :
    (utf8Bytes rest).head? ≠ some 13 ∧
      ¬ ((utf8Bytes rest).head? = some 10 ∨ (utf8Bytes rest).head? = some 12) :=
  ⟨head?_utf8Bytes_ne hcr (by decide),
    fun h => h.elim (head?_utf8Bytes_ne hlf (by decide)) (head?_utf8Bytes_ne hff (by decide))⟩

end StringSteps

section Strings

variable {q : Char} (hq : q.toNat < 128)
include hq

theorem stringBody_utf8Bytes_plain {c : Char} (hcq : c ≠ q) (hcb : c ≠ '\\')
    (hnl : ¬ (c = '\n' ∨ c = '\r' ∨ c = '\x0c')) (cs : List Char) :
    Bytes.stringBody q.toUInt8 (utf8Bytes (c :: cs)) =
      (Bytes.stringBody q.toUInt8 (utf8Bytes cs)).map fun p => (String.utf8EncodeChar c ++ p.1, p.2) := by
  by_cases hc : c.toNat < 128
  · have hnl' : ¬ (c.toUInt8 = 10 ∨ c.toUInt8 = 13 ∨ c.toUInt8 = 12) := by
      rwa [show (10 : UInt8) = ('\n' : Char).toUInt8 from rfl, show (13 : UInt8) = ('\r' : Char).toUInt8 from rfl,
        show (12 : UInt8) = ('\x0c' : Char).toUInt8 from rfl, toUInt8_eq_iff hc _ (by decide),
        toUInt8_eq_iff hc _ (by decide), toUInt8_eq_iff hc _ (by decide)]
    rw [utf8Bytes_cons_of_lt hc, Bytes.stringBody_plain (toUInt8_ne hc hq hcq)
      (toUInt8_ne hc (by decide) hcb) hnl', utf8EncodeChar_of_lt hc]
    rfl
  · rw [utf8Bytes_cons,
      Bytes.stringBody_high_append (toNat_toUInt8_lt hq) (utf8EncodeChar_high (by omega))]

/-- The body of a quoted string read from the bytes is the bytes of the body read from the
characters. -/
theorem stringBody_utf8Bytes (cs : List Char) :
    Bytes.stringBody q.toUInt8 (utf8Bytes cs) =
      (stringBody q cs).map fun p => (utf8Bytes p.1, utf8Bytes p.2) := by
  induction cs using stringBody.induct q with
  | case1 => rw [utf8Bytes_nil, Bytes.stringBody, stringBody.eq_1]; rfl
  | case2 rest =>
    rw [utf8Bytes_cons_of_lt hq, Bytes.stringBody_self, stringBody.eq_def]
    simp
  | case3 after hb _ ih =>
    rw [utf8Bytes_backslash, utf8Bytes_cons_of_lt (by decide), show ('\r' : Char).toUInt8 = 13 from rfl,
      Bytes.stringBody_crlf (backslash_toUInt8_ne hq hb), dropLineFeed_utf8Bytes, ih,
      stringBody_lineBreak (Ne.symm hb) (lineBreakAt_dropLineFeed after)]
  | case4 after hb _ ih =>
    rw [utf8Bytes_backslash, utf8Bytes_cons_of_lt (by decide), show ('\n' : Char).toUInt8 = 10 from rfl,
      Bytes.stringBody_lineBreak (backslash_toUInt8_ne hq hb) (.inl rfl), ih,
      stringBody_lineBreak (Ne.symm hb) (.lf after)]
  | case5 after hb _ ih =>
    rw [utf8Bytes_backslash, utf8Bytes_cons_of_lt (by decide), show ('\x0c' : Char).toUInt8 = 12 from rfl,
      Bytes.stringBody_lineBreak (backslash_toUInt8_ne hq hb) (.inr rfl), ih,
      stringBody_lineBreak (Ne.symm hb) (.ff after)]
  | case6 rest d after hcr hlf hff hb he _ ih =>
    have hbytes := escape_backslash_utf8Bytes rest
    rw [he] at hbytes
    obtain ⟨h13, hnl⟩ := head?_utf8Bytes_noBreak hcr hlf hff
    rw [utf8Bytes_backslash, Bytes.stringBody_escape (backslash_toUInt8_ne hq hb) h13 hnl, hbytes,
      Option.map_some, Option.bind_some, stringBody_escape_map hb hcr hlf hff, he, Option.bind_some, ih]
    simp only [Option.map_map]
    rfl
  | case7 rest hcr hlf hff hb he =>
    have hbytes := escape_backslash_utf8Bytes rest
    rw [he] at hbytes
    obtain ⟨h13, hnl⟩ := head?_utf8Bytes_noBreak hcr hlf hff
    rw [utf8Bytes_backslash, Bytes.stringBody_escape (backslash_toUInt8_ne hq hb) h13 hnl, hbytes,
      stringBody_escape_map hb hcr hlf hff, he]
    rfl
  | case8 c rest hcq hcb hnl =>
    rw [stringBody_lineBreak_none hcq hcb hnl]
    rcases hnl with rfl | rfl | rfl <;> rw [utf8Bytes_cons_of_lt (by decide)] <;>
      exact Bytes.stringBody_lineFeed (toUInt8_ne (by decide) hq hcq) (by decide) (by decide) _
  | case9 c rest hcq hcb hnl ih =>
    rw [stringBody_utf8Bytes_plain hq hcq hcb (by tauto), ih, stringBody_plain_map hcq hcb hnl,
      Option.map_map, Option.map_map]
    rfl

end Strings

theorem quoted_utf8Bytes (cs : List Char) :
    Bytes.quoted (utf8Bytes cs) = (quoted cs).map fun p => (utf8Bytes p.1.toList, utf8Bytes p.2) := by
  cases cs with
  | nil => rfl
  | cons c rest =>
    by_cases hq : c = '"' ∨ c = '\x27'
    · have hc : c.toNat < 128 := by rcases hq with rfl | rfl <;> decide
      have hb : c.toUInt8 = 34 ∨ c.toUInt8 = 39 := by rcases hq with rfl | rfl <;> decide
      rw [utf8Bytes_cons_of_lt hc, Bytes.quoted, if_pos hb, stringBody_utf8Bytes hc, quoted, if_pos hq,
        Option.map_map]
      simp only [Function.comp_def, String.toList_ofList]
    · obtain ⟨b, tail, hbt, hfirst, -⟩ := utf8Bytes_cons_eq c rest
      have hb : ¬ (b = 34 ∨ b = 39) := by
        rw [show (34 : UInt8) = ('"' : Char).toUInt8 from rfl, show (39 : UInt8) = ('\x27' : Char).toUInt8 from rfl,
          hfirst _ (by decide), hfirst _ (by decide)]
        exact hq
      rw [hbt, Bytes.quoted, if_neg hb, quoted, if_neg hq]
      rfl

end TreeQuery.Selector
