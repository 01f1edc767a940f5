import TreeQuery.Proofs.ByteScanning

namespace TreeQuery.Selector

namespace Bytes

section Skips

variable {q b : UInt8} {rest : List UInt8}

theorem skipQuoted_self (rest : List UInt8) : skipQuoted q (q :: rest) = some rest := by
  rw [skipQuoted, if_pos rfl]

theorem skipQuoted_escape {out after : List UInt8} (hq : 92 ≠ q)
    (he : escape (92 :: rest) = some (out, after)) :
    skipQuoted q (92 :: rest) = skipQuoted q after := by
  rw [skipQuoted, if_neg hq, if_pos rfl]
  split <;> rename_i h <;> rw [he] at h
  · cases h
    rfl
  · cases h

theorem skipQuoted_stray (hq : 92 ≠ q) (he : escape (92 :: rest) = none) :
    skipQuoted q (92 :: rest) = skipQuoted q (rest.drop 1) := by
  rw [skipQuoted, if_neg hq, if_pos rfl]
  split <;> rename_i h
  · rw [he] at h
    cases h
  · rfl

theorem skipQuoted_other (hq : b ≠ q) (hb : b ≠ 92) : skipQuoted q (b :: rest) = skipQuoted q rest := by
  rw [skipQuoted, if_neg hq, if_neg hb]

theorem skipQuoted_high_append (hq : q.toNat < 128) {xs : List UInt8} (hx : ∀ x ∈ xs, 128 ≤ x.toNat)
    (bs : List UInt8) : skipQuoted q (xs ++ bs) = skipQuoted q bs := by
  induction xs with
  | nil => rfl
  | cons x xs ih =>
    have hx0 := hx x List.mem_cons_self
    rw [List.cons_append, skipQuoted_other (ne_of_le_toNat hx0 hq) (ne_of_le_toNat hx0 (by decide)),
      ih fun y hy => hx y (List.mem_cons_of_mem x hy)]

theorem afterCommentEnd_high_append {xs : List UInt8} (hx : ∀ x ∈ xs, 128 ≤ x.toNat)
    (bs : List UInt8) : afterCommentEnd (xs ++ bs) = afterCommentEnd bs := by
  induction xs with
  | nil => rfl
  | cons x xs ih =>
    have hx0 := hx x List.mem_cons_self
    rw [List.cons_append, afterCommentEnd, if_neg fun h => ne_of_le_toNat hx0 (by decide) h.1,
      ih fun y hy => hx y (List.mem_cons_of_mem x hy)]

end Skips

end Bytes

theorem drop_one_utf8Bytes {rest : List Char} (he : escape ('\\' :: rest) = none) :
    (utf8Bytes rest).drop 1 = utf8Bytes (rest.drop 1) := by
  cases rest with
  | nil => rfl
  | cons c r =>
    have hc : c = '\n' ∨ c = '\r' ∨ c = '\x0c' := by
      by_contra hn
      rw [escape, if_neg hn] at he
      split at he <;> cases he
    have hlt : c.toNat < 128 := by rcases hc with rfl | rfl | rfl <;> decide
    rw [utf8Bytes_cons_of_lt hlt]
    rfl

theorem skipQuoted_utf8Bytes {q : Char} (hq : q.toNat < 128) (cs : List Char) :
    Bytes.skipQuoted q.toUInt8 (utf8Bytes cs) = (skipQuoted q cs).map utf8Bytes := by
  induction cs using skipQuoted.induct q with
  | case1 => rw [utf8Bytes_nil, Bytes.skipQuoted, skipQuoted]; rfl
  | case2 rest => rw [utf8Bytes_cons_of_lt hq, Bytes.skipQuoted_self, skipQuoted_self]; rfl
  | case3 rest d after hb he _ ih =>
    have hbytes := escape_backslash_utf8Bytes rest
    rw [he, Option.map_some] at hbytes
    rw [utf8Bytes_backslash, Bytes.skipQuoted_escape (backslash_toUInt8_ne hq hb) hbytes, ih,
      skipQuoted_escape hb he]
  | case4 rest hb he ih =>
    have hbytes := escape_backslash_utf8Bytes rest
    rw [he, Option.map_none] at hbytes
    rw [utf8Bytes_backslash, Bytes.skipQuoted_stray (backslash_toUInt8_ne hq hb) hbytes,
      drop_one_utf8Bytes he, ih, skipQuoted_stray hb he]
  | case5 c rest hcq hcb ih =>
    rw [skipQuoted_other hcq hcb, ← ih]
    by_cases hc : c.toNat < 128
    · rw [utf8Bytes_cons_of_lt hc, Bytes.skipQuoted_other (toUInt8_ne hc hq hcq) (toUInt8_ne hc (by decide) hcb)]
    · rw [utf8Bytes_cons,
        Bytes.skipQuoted_high_append (toNat_toUInt8_lt hq) (utf8EncodeChar_high (by omega))]

theorem afterCommentEnd_utf8Bytes (cs : List Char) :
    Bytes.afterCommentEnd (utf8Bytes cs) = (afterCommentEnd cs).map utf8Bytes := by
  induction cs using afterCommentEnd.induct with
  | case1 rest =>
    rw [utf8Bytes_cons_of_lt (by decide), utf8Bytes_cons_of_lt (by decide)]
    rfl
  | case2 c rest hne ih =>
    rw [afterCommentEnd.eq_2 c rest hne, ← ih]
    by_cases hc : c.toNat < 128
    · -- a star ends the comment only before a slash
      have hend : ¬ (c.toUInt8 = 42 ∧ (utf8Bytes rest).head? = some 47) := by
        rintro ⟨h42, h47⟩
        have hstar : c = '*' := (toUInt8_eq_iff hc '*' (by decide)).mp h42
        exact head?_utf8Bytes_ne (hne · hstar) (by decide) h47
      rw [utf8Bytes_cons_of_lt hc, Bytes.afterCommentEnd, if_neg hend]
    · rw [utf8Bytes_cons, Bytes.afterCommentEnd_high_append (utf8EncodeChar_high (by omega))]
  | case3 => rfl

theorem dropWhile_utf8Bytes (cs : List Char) :
    (utf8Bytes cs).dropWhile (· != 10) = utf8Bytes (cs.dropWhile (· != '\n')) := by
  induction cs with
  | nil => rfl
  | cons c rest ih =>
    by_cases hc : c = '\n'
    · subst hc
      rw [utf8Bytes_cons_of_lt (by decide)]
      rfl
    · have hkeep : ∀ x ∈ String.utf8EncodeChar c, (x != 10) = true := by
        intro x hx
        by_cases hlt : c.toNat < 128
        · rw [utf8EncodeChar_of_lt hlt, List.mem_singleton] at hx
          subst hx
          have h10 : c.toUInt8 ≠ 10 := toUInt8_ne hlt (by decide) hc
          simpa using h10
        · simpa using ne_of_le_toNat (utf8EncodeChar_high (by omega) x hx) (by decide)
      rw [utf8Bytes_cons, List.dropWhile_append_of_pos hkeep, ih, List.dropWhile_cons,
        if_pos (by simpa using hc)]

theorem Nesting.mem_pairs {n : Nesting} {pr : Char × Char} (h : pr ∈ n.pairs) :
    pr ∈ [('<', '>'), ('[', ']'), ('(', ')'), ('{', '}')] := by
  simp only [Nesting.pairs, List.mem_append] at h
  split_ifs at h <;> simp only [List.mem_singleton, List.not_mem_nil, or_false,
    false_or] at h <;> simp only [List.mem_cons, List.not_mem_nil, or_false] <;> tauto

theorem Nesting.pairs_lt {n : Nesting} {pr : Char × Char} (h : pr ∈ n.pairs) :
    pr.1.toNat < 128 ∧ pr.2.toNat < 128 := by
  have h' := Nesting.mem_pairs h
  simp only [List.mem_cons, List.not_mem_nil, or_false] at h'
  rcases h' with rfl | rfl | rfl | rfl <;> decide

theorem closerOf_toUInt8 (n : Nesting) {c : Char} (hc : c.toNat < 128) :
    Bytes.closerOf n c.toUInt8 = (n.closerOf c).map Char.toUInt8 := by
  have hfind : ∀ l : List (Char × Char), (∀ pr ∈ l, pr ∈ n.pairs) →
      l.find? (fun pr => pr.1.toUInt8 == c.toUInt8) = l.find? (fun pr => pr.1 == c) := by
    intro l hl
    induction l with
    | nil => rfl
    | cons pr l ih =>
      have hpr := (Nesting.pairs_lt (hl pr List.mem_cons_self)).1
      have heq : (pr.1.toUInt8 == c.toUInt8) = (pr.1 == c) := by
        rw [Bool.eq_iff_iff, beq_iff_eq, beq_iff_eq]
        exact toUInt8_eq_iff hpr c hc
      rw [List.find?_cons, List.find?_cons, heq, ih fun x hx => hl x (List.mem_cons_of_mem pr hx)]
  rw [Bytes.closerOf, hfind n.pairs fun _ h => h, Nesting.closerOf, Option.map_map]
  rfl

theorem closerOf_high (n : Nesting) {b : UInt8} (hb : 128 ≤ b.toNat) : Bytes.closerOf n b = none := by
  rw [Bytes.closerOf, Option.map_eq_none_iff, List.find?_eq_none]
  intro pr hpr h
  have hlt := (Nesting.pairs_lt hpr).1
  rw [beq_iff_eq] at h
  rw [← h, toNat_toUInt8_of_lt hlt] at hb
  omega

theorem isCloser_toUInt8 (n : Nesting) {c : Char} (hc : c.toNat < 128) :
    Bytes.isCloser n c.toUInt8 = n.isCloser c := by
  rw [Bytes.isCloser, Nesting.isCloser, Bool.eq_iff_iff, List.any_eq_true, List.any_eq_true]
  constructor
  · rintro ⟨pr, hpr, h⟩
    rw [beq_iff_eq, toUInt8_eq_iff (Nesting.pairs_lt hpr).2 c hc] at h
    exact ⟨pr, hpr, beq_iff_eq.mpr h⟩
  · rintro ⟨pr, hpr, h⟩
    rw [beq_iff_eq] at h
    exact ⟨pr, hpr, beq_iff_eq.mpr (by rw [h])⟩

theorem isCloser_high (n : Nesting) {b : UInt8} (hb : 128 ≤ b.toNat) : Bytes.isCloser n b = false := by
  rw [Bytes.isCloser, List.any_eq_false]
  intro pr hpr h
  have hlt := (Nesting.pairs_lt hpr).2
  rw [beq_iff_eq] at h
  rw [← h, toNat_toUInt8_of_lt hlt] at hb
  omega

theorem lt_of_closerOf {n : Nesting} {c close : Char} (h : n.closerOf c = some close) :
    c.toNat < 128 ∧ close.toNat < 128 := by
  obtain ⟨pr, hf, rfl⟩ := Option.map_eq_some_iff.mp h
  have hpr := Nesting.pairs_lt (List.mem_of_find?_eq_some hf)
  have hc := List.find?_some hf
  rw [beq_iff_eq] at hc
  rw [← hc]
  exact hpr

theorem lt_of_isCloser {n : Nesting} {c : Char} (h : n.isCloser c = true) : c.toNat < 128 := by
  obtain ⟨pr, hpr, hc⟩ := List.any_eq_true.mp h
  rw [← beq_iff_eq.mp hc]
  exact (Nesting.pairs_lt hpr).2

namespace Bytes

section Balanced

variable {n : Nesting} {t b : UInt8} {p rest : List UInt8}

theorem balanced_stop (hp : p.isEmpty = true) (rest : List UInt8) :
    balanced n t p (t :: rest) = some (t :: rest) := by
  rw [balanced, if_pos ⟨hp, rfl⟩]

theorem balanced_backslash (hs : ¬ (p.isEmpty = true ∧ 92 = t)) :
    balanced n t p (92 :: rest) = balanced n t p (rest.drop ((peekChar rest).elim 0 Char.utf8Size)) := by
  rw [balanced, if_neg hs, if_pos rfl]

theorem balanced_quote (hs : ¬ (p.isEmpty = true ∧ b = t)) (hb : b ≠ 92)
    (hq : (b = 34 ∨ b = 39) ∧ n.quotes = true) :
    balanced n t p (b :: rest) = (skipQuoted b rest).bind (balanced n t p) := by
  rw [balanced, if_neg hs, if_neg hb, if_pos hq]
  split <;> rename_i h <;> simp only [h, Option.bind_some, Option.bind_none]

theorem balanced_blockComment (hs : ¬ (p.isEmpty = true ∧ b = t)) (hb : b ≠ 92)
    (hq : ¬ ((b = 34 ∨ b = 39) ∧ n.quotes = true)) (hc : b = 47 ∧ rest.head? = some 42 ∧ n.blockComments = true) :
    balanced n t p (b :: rest) =
      (if startsChar (rest.drop 1) then afterCommentEnd (rest.drop 1) else none).bind (balanced n t p) := by
  rw [balanced, if_neg hs, if_neg hb, if_neg hq, if_pos hc]
  split <;> rename_i h <;> simp only [h, Option.bind_some, Option.bind_none]

theorem balanced_lineComment (hs : ¬ (p.isEmpty = true ∧ b = t)) (hb : b ≠ 92)
    (hq : ¬ ((b = 34 ∨ b = 39) ∧ n.quotes = true))
    (hc : ¬ (b = 47 ∧ rest.head? = some 42 ∧ n.blockComments = true))
    (hl : b = 47 ∧ rest.head? = some 47 ∧ n.lineComments = true) :
    balanced n t p (b :: rest) = balanced n t p ((b :: rest).dropWhile (· != 10)) := by
  rw [balanced, if_neg hs, if_neg hb, if_neg hq, if_neg hc, dif_pos hl]

theorem balanced_ordinary (hs : ¬ (p.isEmpty = true ∧ b = t)) (hb : b ≠ 92)
    (hq : ¬ ((b = 34 ∨ b = 39) ∧ n.quotes = true))
    (hc : ¬ (b = 47 ∧ rest.head? = some 42 ∧ n.blockComments = true))
    (hl : ¬ (b = 47 ∧ rest.head? = some 47 ∧ n.lineComments = true)) :
    balanced n t p (b :: rest) =
      (closerOf n b).elim
        (if p.head? = some b then balanced n t p.tail rest
          else if isCloser n b then none
          else balanced n t p rest)
        (fun close => balanced n t (close :: p) rest) := by
  rw [balanced, if_neg hs, if_neg hb, if_neg hq, if_neg hc, dif_neg hl]
  cases closerOf n b <;> rfl

theorem balanced_high_append (ht : t.toNat < 128) (hp : ∀ y ∈ p, y.toNat < 128) {xs : List UInt8}
    (hx : ∀ x ∈ xs, 128 ≤ x.toNat) (bs : List UInt8) : balanced n t p (xs ++ bs) = balanced n t p bs := by
  induction xs with
  | nil => rfl
  | cons x xs ih =>
    have hx0 := hx x List.mem_cons_self
    have hslash : x ≠ 47 := ne_of_le_toNat hx0 (by decide)
    have hhead : p.head? ≠ some x := fun h =>
      absurd (hp x (List.mem_of_mem_head? h)) (by omega)
    rw [List.cons_append, balanced_ordinary (fun h => ne_of_le_toNat hx0 ht h.2)
      (ne_of_le_toNat hx0 (by decide))
      (fun h => h.1.elim (ne_of_le_toNat hx0 (by decide)) (ne_of_le_toNat hx0 (by decide)))
      (fun h => hslash h.1) (fun h => hslash h.1), closerOf_high n hx0, Option.elim_none, if_neg hhead,
      isCloser_high n hx0, if_neg Bool.false_ne_true, ih fun y hy => hx y (List.mem_cons_of_mem x hy)]

end Balanced

end Bytes

section Agreement

variable {c : Char} (hc : c.toNat < 128)
include hc

theorem stop_toUInt8_iff {t : Char} (ht : t.toNat < 128) (p : List Char) :
    ((p.map Char.toUInt8).isEmpty = true ∧ c.toUInt8 = t.toUInt8) ↔ (p.isEmpty = true ∧ c = t) := by
  rw [List.isEmpty_map, toUInt8_eq_iff hc t ht]

theorem quote_toUInt8_iff (flag : Bool) :
    ((c.toUInt8 = 34 ∨ c.toUInt8 = 39) ∧ flag = true) ↔ ((c = '"' ∨ c = '\x27') ∧ flag = true) := by
  rw [show (34 : UInt8) = ('"' : Char).toUInt8 from rfl, show (39 : UInt8) = ('\x27' : Char).toUInt8 from rfl,
    toUInt8_eq_iff hc _ (by decide), toUInt8_eq_iff hc _ (by decide)]

theorem comment_toUInt8_iff {d : Char} (hd : d.toNat < 128) {e : UInt8} (he : d.toUInt8 = e)
    (rest : List Char) (flag : Bool) :
    (c.toUInt8 = 47 ∧ (utf8Bytes rest).head? = some e ∧ flag = true) ↔
      (c = '/' ∧ rest.head? = some d ∧ flag = true) := by
  rw [show (47 : UInt8) = ('/' : Char).toUInt8 from rfl, toUInt8_eq_iff hc _ (by decide), ← he,
    head?_utf8Bytes_eq_iff d hd]

theorem head?_map_toUInt8_iff {p : List Char} (hp : ∀ y ∈ p, y.toNat < 128) :
    (p.map Char.toUInt8).head? = some c.toUInt8 ↔ p.head? = some c := by
  rw [List.head?_map]
  cases hh : p.head? with
  | none => simp
  | some y =>
    rw [Option.map_some, Option.some.injEq, Option.some.injEq]
    exact toUInt8_eq_iff (hp y (List.mem_of_mem_head? hh)) c hc

end Agreement

theorem drop_peekChar_utf8Bytes (cs : List Char) :
    (utf8Bytes cs).drop ((Bytes.peekChar (utf8Bytes cs)).elim 0 Char.utf8Size) = utf8Bytes (cs.drop 1) := by
  cases cs with
  | nil => rfl
  | cons d rest =>
    rw [peekChar_utf8Bytes_cons, Option.elim_some, drop_utf8Size_utf8Bytes]
    rfl

section Scan

variable {n : Nesting} {t : Char} (ht : t.toNat < 128)
include ht

theorem balanced_utf8Bytes_ordinary {c : Char} (hc : c.toNat < 128) {p rest : List Char}
    (hp : ∀ y ∈ p, y.toNat < 128) (hs : ¬ (p.isEmpty = true ∧ c = t)) (hb : c ≠ '\\')
    (hq : ¬ ((c = '"' ∨ c = '\x27') ∧ n.quotes = true))
    (hbc : ¬ (c = '/' ∧ rest.head? = some '*' ∧ n.blockComments = true))
    (hl : ¬ (c = '/' ∧ rest.head? = some '/' ∧ n.lineComments = true)) :
    Bytes.balanced n t.toUInt8 (p.map Char.toUInt8) (utf8Bytes (c :: rest)) =
      (n.closerOf c).elim
        (if p.head? = some c then Bytes.balanced n t.toUInt8 (p.tail.map Char.toUInt8) (utf8Bytes rest)
          else if n.isCloser c then none
          else Bytes.balanced n t.toUInt8 (p.map Char.toUInt8) (utf8Bytes rest))
        (fun close => Bytes.balanced n t.toUInt8 ((close :: p).map Char.toUInt8) (utf8Bytes rest)) := by
  rw [utf8Bytes_cons_of_lt hc, Bytes.balanced_ordinary (mt (stop_toUInt8_iff hc ht p).mp hs)
    (toUInt8_ne hc (by decide) hb) (mt (quote_toUInt8_iff hc _).mp hq)
    (mt (@comment_toUInt8_iff c hc '*' (by decide) 42 rfl rest _).mp hbc)
    (mt (@comment_toUInt8_iff c hc '/' (by decide) 47 rfl rest _).mp hl),
    closerOf_toUInt8 n hc, isCloser_toUInt8 n hc]
  cases n.closerOf c with
  | some close => rfl
  | none =>
    simp only [Option.map_none, Option.elim_none, List.map_tail]
    by_cases hh : p.head? = some c
    · rw [if_pos ((head?_map_toUInt8_iff hc hp).mpr hh), if_pos hh]
    · rw [if_neg fun h => hh ((head?_map_toUInt8_iff hc hp).mp h), if_neg hh]

theorem balanced_utf8Bytes_quote {c : Char} {p rest : List Char} (hs : ¬ (p.isEmpty = true ∧ c = t))
    (hb : c ≠ '\\') (hq : (c = '"' ∨ c = '\x27') ∧ n.quotes = true) :
    Bytes.balanced n t.toUInt8 (p.map Char.toUInt8) (utf8Bytes (c :: rest)) =
      ((skipQuoted c rest).map utf8Bytes).bind (Bytes.balanced n t.toUInt8 (p.map Char.toUInt8)) := by
  have hc : c.toNat < 128 := by rcases hq.1 with rfl | rfl <;> decide
  rw [utf8Bytes_cons_of_lt hc, Bytes.balanced_quote (mt (stop_toUInt8_iff hc ht p).mp hs)
    (toUInt8_ne hc (by decide) hb) ((quote_toUInt8_iff hc _).mpr hq), skipQuoted_utf8Bytes hc]

theorem balanced_utf8Bytes_blockComment {c : Char} {p r : List Char} (hs : ¬ (p.isEmpty = true ∧ c = t))
    (hb : c ≠ '\\') (hq : ¬ ((c = '"' ∨ c = '\x27') ∧ n.quotes = true))
    (hbc : c = '/' ∧ ('*' :: r).head? = some '*' ∧ n.blockComments = true) :
    Bytes.balanced n t.toUInt8 (p.map Char.toUInt8) (utf8Bytes (c :: '*' :: r)) =
      ((afterCommentEnd r).map utf8Bytes).bind (Bytes.balanced n t.toUInt8 (p.map Char.toUInt8)) := by
  have hc : c.toNat < 128 := by rw [hbc.1]; decide
  have hdrop : (utf8Bytes ('*' :: r)).drop 1 = utf8Bytes r := by
    rw [utf8Bytes_cons_of_lt (by decide)]
    rfl
  rw [utf8Bytes_cons_of_lt hc, Bytes.balanced_blockComment (mt (stop_toUInt8_iff hc ht p).mp hs)
    (toUInt8_ne hc (by decide) hb) (mt (quote_toUInt8_iff hc _).mp hq)
    ((@comment_toUInt8_iff c hc '*' (by decide) 42 rfl _ _).mpr hbc), hdrop,
    if_pos (startsChar_utf8Bytes r), afterCommentEnd_utf8Bytes]

/-- The balanced scan of the bytes stops where the scan of the characters stops, with the
closing characters still expected kept as their bytes. -/
theorem balanced_utf8Bytes (p cs : List Char) (hp : ∀ y ∈ p, y.toNat < 128) :
    Bytes.balanced n t.toUInt8 (p.map Char.toUInt8) (utf8Bytes cs) = (balanced n t p cs).map utf8Bytes := by
  -- one case for each branch of the character scan; every character it tests is ASCII
  induction p, cs using balanced.induct n t with
  | case1 p => rw [utf8Bytes_nil, Bytes.balanced, balanced]; rfl
  | case2 p c rest hstop =>
    obtain ⟨hpe, rfl⟩ := hstop
    rw [utf8Bytes_cons_of_lt ht, Bytes.balanced_stop (by rw [List.isEmpty_map]; exact hpe),
      balanced_stop hpe, Option.map_some, utf8Bytes_cons_of_lt ht]
  | case3 p rest hs _ ih =>
    rw [utf8Bytes_backslash,
      Bytes.balanced_backslash fun h => hs ((@stop_toUInt8_iff '\\' (by decide) t ht p).mp h),
      drop_peekChar_utf8Bytes, ih hp, balanced_backslash hs]
  | case4 p c rest hs hb hq after hskip _ ih =>
    rw [balanced_utf8Bytes_quote ht hs hb hq, hskip, Option.map_some, Option.bind_some, ih hp,
      balanced_quote hs hb hq, hskip, Option.bind_some]
  | case5 p c rest hs hb hq hskip =>
    rw [balanced_utf8Bytes_quote ht hs hb hq, hskip, balanced_quote hs hb hq, hskip]
    rfl
  | case6 p c rest hs hb hq hbc after hend _ ih =>
    obtain ⟨r, rfl⟩ := List.head?_eq_some_iff.mp hbc.2.1
    have hend' : afterCommentEnd r = some after := hend
    rw [balanced_utf8Bytes_blockComment ht hs hb hq hbc, hend', Option.map_some, Option.bind_some, ih hp,
      balanced_blockComment hs hb hq hbc, hend, Option.bind_some]
  | case7 p c rest hs hb hq hbc hend =>
    obtain ⟨r, rfl⟩ := List.head?_eq_some_iff.mp hbc.2.1
    have hend' : afterCommentEnd r = none := hend
    rw [balanced_utf8Bytes_blockComment ht hs hb hq hbc, hend', balanced_blockComment hs hb hq hbc, hend]
    rfl
  | case8 p c rest hs hb hq hbc hl _ ih =>
    have hc : c.toNat < 128 := by rw [hl.1]; decide
    rw [utf8Bytes_cons_of_lt hc, Bytes.balanced_lineComment (mt (stop_toUInt8_iff hc ht p).mp hs)
      (toUInt8_ne hc (by decide) hb) (mt (quote_toUInt8_iff hc _).mp hq)
      (mt (@comment_toUInt8_iff c hc '*' (by decide) 42 rfl rest _).mp hbc)
      ((@comment_toUInt8_iff c hc '/' (by decide) 47 rfl rest _).mpr hl), ← utf8Bytes_cons_of_lt hc rest,
      dropWhile_utf8Bytes, ih hp, balanced_lineComment hs hb hq hbc hl]
  | case9 p c rest hs hb hq hbc hl close hclose ih =>
    obtain ⟨hc, hcl⟩ := lt_of_closerOf hclose
    rw [balanced_utf8Bytes_ordinary ht hc hp hs hb hq hbc hl, hclose, Option.elim_some,
      ih fun y hy => (List.mem_cons.mp hy).elim (fun h => h ▸ hcl) (hp y), balanced_ordinary hs hb hq hbc hl,
      hclose, Option.elim_some]
  | case10 p c rest hs hb hq hbc hl hnone hhead ih =>
    have hc := hp c (List.mem_of_mem_head? hhead)
    rw [balanced_utf8Bytes_ordinary ht hc hp hs hb hq hbc hl, hnone, Option.elim_none, if_pos hhead,
      ih fun y hy => hp y (List.mem_of_mem_tail hy), balanced_ordinary hs hb hq hbc hl, hnone,
      Option.elim_none, if_pos hhead]
  | case11 p c rest hs hb hq hbc hl hnone hhead hcl =>
    rw [balanced_utf8Bytes_ordinary ht (lt_of_isCloser hcl) hp hs hb hq hbc hl, hnone, Option.elim_none,
      if_neg hhead, if_pos hcl, balanced_ordinary hs hb hq hbc hl, hnone, Option.elim_none, if_neg hhead,
      if_pos hcl]
    rfl
  | case12 p c rest hs hb hq hbc hl hnone hhead hcl ih =>
    rw [balanced_ordinary hs hb hq hbc hl, hnone, Option.elim_none, if_neg hhead, if_neg hcl, ← ih hp]
    by_cases hc : c.toNat < 128
    · rw [balanced_utf8Bytes_ordinary ht hc hp hs hb hq hbc hl, hnone, Option.elim_none, if_neg hhead,
        if_neg hcl]
    · -- outside ASCII every byte of the character is passed over
      have hp' : ∀ y ∈ p.map Char.toUInt8, y.toNat < 128 := by
        intro y hy
        obtain ⟨d, hd, rfl⟩ := List.mem_map.mp hy
        exact toNat_toUInt8_lt (hp d hd)
      rw [utf8Bytes_cons,
        Bytes.balanced_high_append (toNat_toUInt8_lt ht) hp' (utf8EncodeChar_high (by omega))]

theorem nested_utf8Bytes (cs : List Char) :
    Bytes.nested n t.toUInt8 (utf8Bytes cs) =
      (nested n t cs).map fun p => (utf8Bytes p.1.toList, utf8Bytes p.2) := by
  have hb := @balanced_utf8Bytes n t ht [] cs fun _ h => absurd h List.not_mem_nil
  rw [List.map_nil] at hb
  unfold Bytes.nested nested
  rw [hb]
  cases hcs : balanced n t [] cs with
  | none => rfl
  | some after =>
    -- the scan stops inside the text, so what it read is the text before the rest
    obtain ⟨pre, rfl⟩ := balanced_isSuffix hcs
    rw [Option.map_some, Option.bind_some, startsChar_utf8Bytes, startsChar_utf8Bytes, if_pos ⟨rfl, rfl⟩,
      Option.map_some, Option.map_some, String.toList_ofList]
    simp only [utf8Bytes_append, List.length_append, Nat.add_sub_cancel, List.take_left']

end Scan

/-- At a character boundary the bytes left are the bytes of the characters left. -/
theorem drop_utf8Bytes_of_restAt {input rest : List Char} {i : Nat} (h : restAt input i = some rest) :
    (utf8Bytes input).drop i = utf8Bytes rest := by
  obtain ⟨pre, rfl, rfl⟩ := restAt_eq_some_iff.mp h
  rw [utf8Bytes_append, ← length_utf8Bytes, List.drop_left]

/-- The UTF-8 bytes of a text are valid and decode back to it. -/
theorem fromUTF8?_utf8Bytes (cs : List Char) :
    String.fromUTF8? (utf8Bytes cs).toByteArray = some (String.ofList cs) := by
  have h : (utf8Bytes cs).toByteArray = (String.ofList cs).toByteArray := by
    rw [String.toByteArray_ofList]
    rfl
  rw [h, String.fromUTF8?, dif_pos (String.ofList cs).isValidUTF8]
  rfl

end TreeQuery.Selector
