import TreeQuery.Proofs.NameText

/-!
# Balanced scans

A balanced scan's answer depends on nothing past its terminator, and each scanner it calls
looks ahead no further than what it skips.
-/

namespace TreeQuery.Selector

theorem dropEscapeBlank_suffix (cs : List Char) : dropEscapeBlank cs <:+ cs := by
  unfold dropEscapeBlank
  split
  · exact (List.suffix_cons _ _).trans (List.suffix_cons _ _)
  · split
    · exact List.suffix_cons _ _
    · exact List.suffix_refl _
  · exact List.suffix_refl _

theorem escape_suffix {cs after : List Char} {d : Char} (h : escape cs = some (d, after)) :
    after <:+ cs := by
  fun_cases escape cs
  · rw [escape, if_pos ‹_›] at h
    cases h
  · rename_i c rest hnl hhex digits
    rw [escape, if_neg hnl, if_pos hhex] at h
    simp only [Option.some.injEq, Prod.mk.injEq] at h
    rw [← h.2]
    exact (dropEscapeBlank_suffix _).trans ((List.drop_suffix _ _).trans (List.suffix_cons _ _))
  · rename_i c rest hnl hhex
    rw [escape, if_neg hnl, if_neg hhex] at h
    cases h
    exact (List.suffix_cons _ _).trans (List.suffix_cons _ _)
  · rename_i hno
    unfold escape at h
    split at h
    · rename_i c rest
      exact absurd rfl (hno c rest)
    · cases h

theorem skipQuoted_suffix {q : Char} {cs after : List Char} (h : skipQuoted q cs = some after) :
    after <:+ cs := by
  fun_induction skipQuoted q cs with
  | case1 => cases h
  | case2 rest =>
    cases h
    exact List.suffix_cons _ _
  | case3 rest c rest' _ he _ ih => exact (ih h).trans ((escape_suffix he).trans (List.suffix_refl _))
  | case4 rest _ _ ih => exact (ih h).trans ((List.drop_suffix _ _).trans (List.suffix_cons _ _))
  | case5 c rest _ _ ih => exact (ih h).trans (List.suffix_cons _ _)

theorem afterCommentEnd_suffix {cs after : List Char} (h : afterCommentEnd cs = some after) :
    after <:+ cs := by
  fun_induction afterCommentEnd cs with
  | case1 rest =>
    cases h
    exact (List.suffix_cons _ _).trans (List.suffix_cons _ _)
  | case2 c rest _ ih => exact (ih h).trans (List.suffix_cons _ _)
  | case3 => cases h

theorem balanced_suffix {n : Nesting} {t : Char} {p cs out : List Char}
    (h : balanced n t p cs = some out) : ∃ r, out = t :: r ∧ out <:+ cs := by
  fun_induction balanced n t p cs with
  | case1 => cases h
  | case2 _ c rest hc =>
    cases h
    exact ⟨rest, by rw [hc.2], List.suffix_refl _⟩
  | case3 _ rest _ _ ih =>
    obtain ⟨r, hr, hs⟩ := ih h
    exact ⟨r, hr, hs.trans ((List.drop_suffix _ _).trans (List.suffix_cons _ _))⟩
  | case4 _ c rest _ _ _ after hq _ ih =>
    obtain ⟨r, hr, hs⟩ := ih h
    exact ⟨r, hr, hs.trans ((skipQuoted_suffix hq).trans (List.suffix_cons _ _))⟩
  | case5 => cases h
  | case6 _ c rest _ _ _ _ after hc _ ih =>
    obtain ⟨r, hr, hs⟩ := ih h
    exact ⟨r, hr, hs.trans ((afterCommentEnd_suffix hc).trans
      ((List.drop_suffix _ _).trans (List.suffix_cons _ _)))⟩
  | case7 => cases h
  | case8 _ c rest _ _ _ _ _ _ ih =>
    obtain ⟨r, hr, hs⟩ := ih h
    exact ⟨r, hr, hs.trans (List.dropWhile_suffix _)⟩
  | case9 _ c rest _ _ _ _ _ close _ ih =>
    obtain ⟨r, hr, hs⟩ := ih h
    exact ⟨r, hr, hs.trans (List.suffix_cons _ _)⟩
  | case10 _ c rest _ _ _ _ _ _ _ ih =>
    obtain ⟨r, hr, hs⟩ := ih h
    exact ⟨r, hr, hs.trans (List.suffix_cons _ _)⟩
  | case11 => cases h
  | case12 _ c rest _ _ _ _ _ _ _ _ ih =>
    obtain ⟨r, hr, hs⟩ := ih h
    exact ⟨r, hr, hs.trans (List.suffix_cons _ _)⟩

theorem balanced_isSuffix {n : Nesting} {t : Char} {p cs out : List Char}
    (h : balanced n t p cs = some out) : out <:+ cs := by
  obtain ⟨_, -, hs⟩ := balanced_suffix h
  exact hs

section Steps

variable {n : Nesting} {t c : Char} {p rest : List Char}

theorem balanced_stop (hp : p.isEmpty = true) (rest : List Char) :
    balanced n t p (t :: rest) = some (t :: rest) := by
  rw [balanced, if_pos ⟨hp, rfl⟩]

theorem balanced_backslash (hs : ¬ (p.isEmpty = true ∧ '\\' = t)) :
    balanced n t p ('\\' :: rest) = balanced n t p (rest.drop 1) := by
  rw [balanced, if_neg hs, if_pos rfl]

theorem balanced_quote (hs : ¬ (p.isEmpty = true ∧ c = t)) (hb : c ≠ '\\')
    (hq : (c = '"' ∨ c = '\x27') ∧ n.quotes = true) :
    balanced n t p (c :: rest) = (skipQuoted c rest).bind (balanced n t p) := by
  rw [balanced, if_neg hs, if_neg hb, if_pos hq]
  split <;> rename_i h <;> simp only [h, Option.bind_some, Option.bind_none]

theorem balanced_blockComment (hs : ¬ (p.isEmpty = true ∧ c = t)) (hb : c ≠ '\\')
    (hq : ¬ ((c = '"' ∨ c = '\x27') ∧ n.quotes = true))
    (hc : c = '/' ∧ rest.head? = some '*' ∧ n.blockComments = true) :
    balanced n t p (c :: rest) = (afterCommentEnd (rest.drop 1)).bind (balanced n t p) := by
  rw [balanced, if_neg hs, if_neg hb, if_neg hq, if_pos hc]
  split <;> rename_i h <;> simp only [h, Option.bind_some, Option.bind_none]

theorem balanced_lineComment (hs : ¬ (p.isEmpty = true ∧ c = t)) (hb : c ≠ '\\')
    (hq : ¬ ((c = '"' ∨ c = '\x27') ∧ n.quotes = true))
    (hc : ¬ (c = '/' ∧ rest.head? = some '*' ∧ n.blockComments = true))
    (hl : c = '/' ∧ rest.head? = some '/' ∧ n.lineComments = true) :
    balanced n t p (c :: rest) = balanced n t p ((c :: rest).dropWhile (· != '\n')) := by
  rw [balanced, if_neg hs, if_neg hb, if_neg hq, if_neg hc, dif_pos hl]

theorem balanced_ordinary (hs : ¬ (p.isEmpty = true ∧ c = t)) (hb : c ≠ '\\')
    (hq : ¬ ((c = '"' ∨ c = '\x27') ∧ n.quotes = true))
    (hc : ¬ (c = '/' ∧ rest.head? = some '*' ∧ n.blockComments = true))
    (hl : ¬ (c = '/' ∧ rest.head? = some '/' ∧ n.lineComments = true)) :
    balanced n t p (c :: rest) =
      (n.closerOf c).elim
        (if p.head? = some c then balanced n t p.tail rest
          else if n.isCloser c then none
          else balanced n t p rest)
        (fun close => balanced n t (close :: p) rest) := by
  rw [balanced, if_neg hs, if_neg hb, if_neg hq, if_neg hc, dif_neg hl]
  cases n.closerOf c <;> rfl

theorem skipQuoted_self (rest : List Char) : skipQuoted c (c :: rest) = some rest := by
  rw [skipQuoted, if_pos rfl]

theorem skipQuoted_escape {d : Char} {after : List Char} (hq : '\\' ≠ c)
    (he : escape ('\\' :: rest) = some (d, after)) :
    skipQuoted c ('\\' :: rest) = skipQuoted c after := by
  rw [skipQuoted, if_neg hq, if_pos rfl]
  split <;> rename_i h <;> rw [he] at h
  · cases h
    rfl
  · cases h

theorem skipQuoted_stray (hq : '\\' ≠ c) (he : escape ('\\' :: rest) = none) :
    skipQuoted c ('\\' :: rest) = skipQuoted c (rest.drop 1) := by
  rw [skipQuoted, if_neg hq, if_pos rfl]
  split
  · rename_i h
    rw [he] at h
    cases h
  · rfl

theorem skipQuoted_other {q : Char} (hq : c ≠ q) (hb : c ≠ '\\') :
    skipQuoted q (c :: rest) = skipQuoted q rest := by
  rw [skipQuoted, if_neg hq, if_neg hb]

theorem afterCommentEnd_other (h : ¬ (c = '*' ∧ rest.head? = some '/')) :
    afterCommentEnd (c :: rest) = afterCommentEnd rest := by
  rw [afterCommentEnd.eq_def]
  split
  · rename_i rest' heq
    simp only [List.cons.injEq] at heq
    obtain ⟨rfl, rfl⟩ := heq
    exact absurd ⟨rfl, rfl⟩ h
  · rename_i heq
    simp only [List.cons.injEq] at heq
    rw [heq.2]
  · rename_i heq
    cases heq

end Steps

section Frame

theorem head?_append_cons (x : List Char) (t : Char) (r r' : List Char) :
    (x ++ t :: r').head? = (x ++ t :: r).head? := by
  cases x <;> rfl

variable {t : Char} {r : List Char}

theorem eq_append_of_suffix {x s a : List Char} (h : a <:+ x ++ s) (hlen : s.length ≤ a.length) :
    ∃ u, a = u ++ s := by
  obtain ⟨v, hv⟩ := h
  rcases List.append_eq_append_iff.mp hv with ⟨a', -, ha⟩ | ⟨c', -, hs⟩
  · exact ⟨a', ha⟩
  · have hc : c'.length = 0 := by
      have := congrArg List.length hs
      simp only [List.length_append] at this
      omega
    rw [List.length_eq_zero_iff.mp hc, List.nil_append] at hs
    exact ⟨[], by rw [hs, List.nil_append]⟩

theorem cons_eq_append_cons {c : Char} {rest x : List Char} (h : c :: rest = x ++ t :: r)
    (hlen : (t :: r).length ≤ rest.length) : ∃ x', x = c :: x' ∧ rest = x' ++ t :: r := by
  cases x with
  | nil =>
    simp only [List.nil_append, List.cons.injEq] at h
    rw [h.2, List.length_cons] at hlen
    omega
  | cons e x' =>
    simp only [List.cons_append, List.cons.injEq] at h
    exact ⟨x', by rw [h.1], h.2⟩

theorem dropEscapeBlank_cons_of_not_crlf {c : Char} {rest : List Char}
    (h : ¬ (c = '\r' ∧ rest.head? = some '\n')) :
    dropEscapeBlank (c :: rest) = if isBlank c then rest else c :: rest := by
  rw [dropEscapeBlank.eq_def]
  split
  · rename_i rest' heq
    simp only [List.cons.injEq] at heq
    obtain ⟨rfl, rfl⟩ := heq
    exact absurd ⟨rfl, rfl⟩ h
  · rename_i heq
    simp only [List.cons.injEq] at heq
    obtain ⟨rfl, rfl⟩ := heq
    rfl
  · rename_i heq
    cases heq

theorem dropEscapeBlank_of_not_blank {c : Char} (hc : isBlank c = false) (rest : List Char) :
    dropEscapeBlank (c :: rest) = c :: rest := by
  have hcr : ¬ (c = '\r' ∧ rest.head? = some '\n') := by
    rintro ⟨rfl, -⟩
    exact absurd hc (by decide)
  rw [dropEscapeBlank_cons_of_not_crlf hcr, if_neg (by simp [hc])]

theorem dropEscapeBlank_append {w : List Char} (hw : 2 ≤ w.length) (s : List Char) :
    dropEscapeBlank (w ++ s) = dropEscapeBlank w ++ s := by
  rcases w with _ | ⟨a, _ | ⟨b, w⟩⟩
  · simp at hw
  · simp at hw
  by_cases hab : a = '\r' ∧ b = '\n'
  · obtain ⟨rfl, rfl⟩ := hab
    simp only [List.cons_append, dropEscapeBlank]
  · have hcr : ∀ rest : List Char, ¬ (a = '\r' ∧ (b :: rest).head? = some '\n') := by
      simpa using hab
    rw [List.cons_append, List.cons_append, dropEscapeBlank_cons_of_not_crlf (hcr _),
      dropEscapeBlank_cons_of_not_crlf (hcr _)]
    split <;> rfl

theorem dropEscapeBlank_frame {v u : List Char} (h : dropEscapeBlank (v ++ t :: r) = u ++ t :: r)
    (r' : List Char) : dropEscapeBlank (v ++ t :: r') = u ++ t :: r' := by
  cases v with
  | nil =>
    have hlen := congrArg List.length h
    have hcr : ¬ (t = '\r' ∧ r.head? = some '\n') := by
      rintro ⟨rfl, hn⟩
      cases r with
      | nil => cases hn
      | cons e r =>
        simp only [List.head?_cons, Option.some.injEq] at hn
        subst hn
        simp only [List.nil_append, dropEscapeBlank, List.length_append, List.length_cons] at hlen
        omega
    rw [List.nil_append, dropEscapeBlank_cons_of_not_crlf hcr] at h
    split at h
    · have := congrArg List.length h
      simp only [List.length_append, List.length_cons] at this
      omega
    · rename_i hb
      have hu : u = [] := by simpa using h.symm
      rw [hu, List.nil_append, dropEscapeBlank_of_not_blank (by simpa using hb)]
  | cons a v =>
    have hw : 2 ≤ (a :: v ++ [t]).length := by simp
    have hsplit : ∀ s : List Char, a :: v ++ t :: s = (a :: v ++ [t]) ++ s := by simp
    rw [hsplit, dropEscapeBlank_append hw, List.append_cons u t r] at h
    rw [hsplit, dropEscapeBlank_append hw, List.append_cancel_right h, List.append_assoc,
      List.singleton_append]

theorem take_takeWhile_frame {q : Char → Bool} {m : Nat} {z : List Char}
    (h : (((z ++ t :: r).takeWhile q).take m).length ≤ z.length) (r' : List Char) :
    ((z ++ t :: r').takeWhile q).take m = ((z ++ t :: r).takeWhile q).take m := by
  rw [List.takeWhile_append] at h
  rw [List.takeWhile_append, List.takeWhile_append]
  by_cases hall : (z.takeWhile q).length = z.length
  · rw [if_pos hall] at h
    rw [if_pos hall, if_pos hall]
    by_cases hm : m ≤ z.length
    · rw [List.take_append_of_le_length hm, List.take_append_of_le_length hm]
    · have ht : q t = false := by
        cases hq : q t with
        | false => rfl
        | true =>
          rw [List.takeWhile_cons_of_pos hq] at h
          simp only [List.length_take, List.length_append, List.length_cons] at h
          omega
      rw [List.takeWhile_cons_of_neg (by simp [ht]), List.takeWhile_cons_of_neg (by simp [ht])]
  · rw [if_neg hall, if_neg hall]

theorem escape_of_ne {b : Char} (hb : b ≠ '\\') (cs : List Char) : escape (b :: cs) = none := by
  unfold escape
  split
  · rename_i c rest heq
    simp only [List.cons.injEq] at heq
    exact absurd heq.1 hb
  · rfl

theorem escape_frame {x a : List Char} {d : Char} (h : escape (x ++ t :: r) = some (d, a))
    (hlen : (t :: r).length ≤ a.length) :
    ∃ u, a = u ++ t :: r ∧ ∀ r', escape (x ++ t :: r') = some (d, u ++ t :: r') := by
  obtain ⟨u, rfl⟩ := eq_append_of_suffix (escape_suffix h) hlen
  refine ⟨u, rfl, fun r' => ?_⟩
  have hshort := escape_shorter h
  rcases x with _ | ⟨b, _ | ⟨c, z⟩⟩
  · simp only [List.nil_append, List.length_append, List.length_cons] at hshort
    omega
  · simp only [List.cons_append, List.nil_append, List.length_append, List.length_cons] at hshort
    omega
  have hb : b = '\\' := by
    by_cases hb : b = '\\'
    · exact hb
    · rw [List.cons_append, escape_of_ne hb] at h
      cases h
  subst hb
  simp only [List.cons_append] at h ⊢
  rw [escape] at h ⊢
  by_cases hnl : c = '\n' ∨ c = '\r' ∨ c = '\x0c'
  · rw [if_pos hnl] at h
    cases h
  rw [if_neg hnl] at h ⊢
  by_cases hhex : isHexDigit c = true
  · rw [if_pos hhex] at h ⊢
    dsimp only at h ⊢
    rw [← List.cons_append] at h ⊢
    simp only [Option.some.injEq, Prod.mk.injEq] at h ⊢
    obtain ⟨hd, hrest⟩ := h
    obtain ⟨D, hD⟩ : ∃ D, (((c :: z) ++ t :: r).takeWhile isHexDigit).take 6 = D := ⟨_, rfl⟩
    rw [hD] at hd hrest
    have hk : D.length ≤ (c :: z).length := by
      have h1 := length_dropEscapeBlank_le (((c :: z) ++ t :: r).drop D.length)
      rw [hrest] at h1
      simp only [List.length_append, List.length_cons, List.length_drop] at h1 ⊢
      omega
    rw [List.drop_append_of_le_length hk] at hrest
    rw [take_takeWhile_frame (by rw [hD]; exact hk) r', hD, List.drop_append_of_le_length hk]
    exact ⟨hd, dropEscapeBlank_frame hrest r'⟩
  · rw [if_neg hhex] at h ⊢
    simp only [Option.some.injEq, Prod.mk.injEq, List.append_cancel_right_eq] at h
    obtain ⟨rfl, rfl⟩ := h
    rfl

theorem newline_of_escape_eq_none {c : Char} {rest : List Char}
    (h : escape ('\\' :: c :: rest) = none) : c = '\n' ∨ c = '\r' ∨ c = '\x0c' := by
  rw [escape] at h
  split at h
  · assumption
  · split at h <;> cases h

theorem skipQuoted_frame {q : Char} {cs a : List Char} (h : skipQuoted q cs = some a)
    (hlen : (t :: r).length ≤ a.length) :
    ∀ x, cs = x ++ t :: r → ∃ u, a = u ++ t :: r ∧
      ∀ r', skipQuoted q (x ++ t :: r') = some (u ++ t :: r') := by
  fun_induction skipQuoted q cs with
  | case1 => cases h
  | case2 rest =>
    intro x hx
    cases h
    obtain ⟨x', rfl, rfl⟩ := cons_eq_append_cons hx hlen
    exact ⟨x', rfl, fun r' => by rw [List.cons_append, skipQuoted_self]⟩
  | case3 rest d after hq he _ ih =>
    intro x hx
    have ha := (skipQuoted_suffix h).length_le
    have hshort := escape_shorter he
    obtain ⟨x', rfl, rfl⟩ := cons_eq_append_cons hx
      (by simp only [List.length_cons] at hshort hlen ⊢; omega)
    rw [← List.cons_append] at he
    obtain ⟨y, rfl, hy⟩ := escape_frame he (Nat.le_trans hlen ha)
    obtain ⟨u, rfl, hu⟩ := ih h y rfl
    refine ⟨u, rfl, fun r' => ?_⟩
    rw [List.cons_append, skipQuoted_escape hq (by rw [← List.cons_append]; exact hy r'), hu r']
  | case4 rest hq hnone ih =>
    intro x hx
    have ha := (skipQuoted_suffix h).length_le
    simp only [List.length_drop] at ha
    obtain ⟨x', rfl, rfl⟩ := cons_eq_append_cons hx
      (by simp only [List.length_cons] at hlen ⊢; omega)
    cases x' with
    | nil =>
      simp only [List.nil_append, List.length_cons] at ha hlen
      omega
    | cons e x'' =>
      simp only [List.cons_append, List.drop_succ_cons, List.drop_zero] at h ih hnone
      obtain ⟨u, rfl, hu⟩ := ih h x'' rfl
      have hnl := newline_of_escape_eq_none hnone
      refine ⟨u, rfl, fun r' => ?_⟩
      rw [List.cons_append, List.cons_append, skipQuoted_stray hq (by rw [escape, if_pos hnl]),
        List.drop_succ_cons, List.drop_zero, hu r']
  | case5 c rest hq hb ih =>
    intro x hx
    obtain ⟨x', rfl, rfl⟩ := cons_eq_append_cons hx (Nat.le_trans hlen (skipQuoted_suffix h).length_le)
    obtain ⟨u, rfl, hu⟩ := ih h x' rfl
    exact ⟨u, rfl, fun r' => by rw [List.cons_append, skipQuoted_other hq hb, hu r']⟩

theorem afterCommentEnd_frame {cs a : List Char} (h : afterCommentEnd cs = some a)
    (hlen : (t :: r).length ≤ a.length) :
    ∀ x, cs = x ++ t :: r → ∃ u, a = u ++ t :: r ∧
      ∀ r', afterCommentEnd (x ++ t :: r') = some (u ++ t :: r') := by
  fun_induction afterCommentEnd cs with
  | case1 rest =>
    intro x hx
    cases h
    obtain ⟨x', rfl, hx'⟩ := cons_eq_append_cons hx (by simp only [List.length_cons] at hlen ⊢; omega)
    obtain ⟨x'', rfl, rfl⟩ := cons_eq_append_cons hx' hlen
    exact ⟨x'', rfl, fun r' => by rw [List.cons_append, List.cons_append, afterCommentEnd]⟩
  | case2 c rest hne ih =>
    intro x hx
    obtain ⟨x', rfl, rfl⟩ := cons_eq_append_cons hx
      (Nat.le_trans hlen (afterCommentEnd_suffix h).length_le)
    obtain ⟨u, rfl, hu⟩ := ih h x' rfl
    refine ⟨u, rfl, fun r' => ?_⟩
    have hend : ¬ (c = '*' ∧ (x' ++ t :: r').head? = some '/') := by
      rintro ⟨hc, hs⟩
      rw [head?_append_cons x' t r r'] at hs
      cases hxr : x' ++ t :: r with
      | nil => simp at hxr
      | cons e rest' =>
        rw [hxr, List.head?_cons, Option.some.injEq] at hs
        exact hne rest' hc (by rw [hxr, hs])
    rw [List.cons_append, afterCommentEnd_other hend, hu r']
  | case3 => cases h

theorem dropWhile_frame {q : Char → Bool} {x : List Char}
    (hlen : (t :: r).length ≤ ((x ++ t :: r).dropWhile q).length) :
    ∃ u, (x ++ t :: r).dropWhile q = u ++ t :: r ∧
      ∀ r', (x ++ t :: r').dropWhile q = u ++ t :: r' := by
  rw [List.dropWhile_append] at hlen ⊢
  by_cases hx : (x.dropWhile q).isEmpty = true
  · rw [if_pos hx] at hlen ⊢
    rw [List.dropWhile_cons] at hlen ⊢
    by_cases ht : q t = true
    · rw [if_pos ht] at hlen
      have := (List.dropWhile_suffix q : r.dropWhile q <:+ r).length_le
      simp only [List.length_cons] at hlen
      omega
    · rw [if_neg ht]
      exact ⟨[], rfl, fun r' => by rw [List.dropWhile_append, if_pos hx, List.dropWhile_cons,
        if_neg ht, List.nil_append]⟩
  · rw [if_neg hx]
    exact ⟨x.dropWhile q, rfl, fun r' => by rw [List.dropWhile_append, if_neg hx]⟩

/-- A balanced scan that stops at a terminator decides nothing from what comes after it. -/
theorem balanced_frame {n : Nesting} {p cs : List Char} (h : balanced n t p cs = some (t :: r)) :
    ∀ x, cs = x ++ t :: r → ∀ r', balanced n t p (x ++ t :: r') = some (t :: r') := by
  fun_induction balanced n t p cs with
  | case1 => cases h
  | case2 _ c rest hc =>
    intro x hx r'
    have hx0 : x.length = 0 := by
      have hl := congrArg List.length hx
      have hr := congrArg List.length (Option.some.inj h)
      simp only [List.length_append, List.length_cons] at hl hr
      omega
    rw [List.length_eq_zero_iff.mp hx0, List.nil_append]
    exact balanced_stop hc.1 r'
  | case3 _ rest hs _ ih =>
    intro x hx r'
    have hsuf := balanced_isSuffix h
    obtain ⟨x', rfl, rfl⟩ := cons_eq_append_cons hx
      (hsuf.trans (List.drop_suffix 1 rest)).length_le
    cases x' with
    | nil =>
      have := hsuf.length_le
      simp only [List.nil_append, List.drop_succ_cons, List.drop_zero, List.length_cons] at this
      omega
    | cons e x'' =>
      simp only [List.cons_append, List.drop_succ_cons, List.drop_zero] at h ih
      rw [List.cons_append, balanced_backslash hs, List.cons_append, List.drop_succ_cons,
        List.drop_zero]
      exact ih h x'' rfl r'
  | case4 _ c rest hs hb hq after hsq _ ih =>
    intro x hx r'
    have hsuf := balanced_isSuffix h
    obtain ⟨x', rfl, rfl⟩ := cons_eq_append_cons hx
      (hsuf.trans (skipQuoted_suffix hsq)).length_le
    obtain ⟨u, rfl, hu⟩ := skipQuoted_frame hsq hsuf.length_le x' rfl
    rw [List.cons_append, balanced_quote hs hb hq, hu r', Option.bind_some]
    exact ih h u rfl r'
  | case5 => cases h
  | case6 _ c rest hs hb hq hc after hac _ ih =>
    intro x hx r'
    have hsuf := balanced_isSuffix h
    have hsuf' := hsuf.trans (afterCommentEnd_suffix hac)
    obtain ⟨x', rfl, rfl⟩ := cons_eq_append_cons hx (hsuf'.trans (List.drop_suffix 1 _)).length_le
    cases x' with
    | nil =>
      have := hsuf'.length_le
      simp only [List.nil_append, List.drop_succ_cons, List.drop_zero, List.length_cons] at this
      omega
    | cons e x'' =>
      rw [← head?_append_cons _ _ _ r'] at hc
      simp only [List.cons_append, List.drop_succ_cons, List.drop_zero] at hac
      obtain ⟨u, rfl, hu⟩ := afterCommentEnd_frame hac hsuf.length_le x'' rfl
      rw [List.cons_append, balanced_blockComment hs hb hq hc, List.cons_append,
        List.drop_succ_cons, List.drop_zero, hu r', Option.bind_some]
      exact ih h u rfl r'
  | case7 => cases h
  | case8 _ c rest hs hb hq hc hl _ ih =>
    intro x hx r'
    have hslash : (c != '\n') = true := by simp [hl.1]
    have hdrop : ∀ l : List Char, (c :: l).dropWhile (· != '\n') = l.dropWhile (· != '\n') :=
      fun l => by rw [List.dropWhile_cons, if_pos hslash]
    have hsuf := balanced_isSuffix h
    rw [hdrop] at hsuf
    obtain ⟨x', rfl, rfl⟩ := cons_eq_append_cons hx
      (hsuf.trans (List.dropWhile_suffix _)).length_le
    obtain ⟨u, hu, hall⟩ := dropWhile_frame hsuf.length_le
    rw [← head?_append_cons _ _ _ r'] at hc hl
    rw [List.cons_append, balanced_lineComment hs hb hq hc hl, hdrop, hall r']
    exact ih h u (by rw [hdrop, hu]) r'
  | case9 _ c rest hs hb hq hc hl close hclose ih =>
    intro x hx r'
    obtain ⟨x', rfl, rfl⟩ := cons_eq_append_cons hx (balanced_isSuffix h).length_le
    rw [← head?_append_cons _ _ _ r'] at hc hl
    rw [List.cons_append, balanced_ordinary hs hb hq hc hl, hclose, Option.elim_some]
    exact ih h x' rfl r'
  | case10 _ c rest hs hb hq hc hl hnone hhead ih =>
    intro x hx r'
    obtain ⟨x', rfl, rfl⟩ := cons_eq_append_cons hx (balanced_isSuffix h).length_le
    rw [← head?_append_cons _ _ _ r'] at hc hl
    rw [List.cons_append, balanced_ordinary hs hb hq hc hl, hnone, Option.elim_none,
      if_pos hhead]
    exact ih h x' rfl r'
  | case11 => cases h
  | case12 _ c rest hs hb hq hc hl hnone hhead hcl ih =>
    intro x hx r'
    obtain ⟨x', rfl, rfl⟩ := cons_eq_append_cons hx (balanced_isSuffix h).length_le
    rw [← head?_append_cons _ _ _ r'] at hc hl
    rw [List.cons_append, balanced_ordinary hs hb hq hc hl, hnone, Option.elim_none,
      if_neg hhead, if_neg hcl]
    exact ih h x' rfl r'

end Frame

section Quiet

variable {n : Nesting} {t c : Char}

theorem closerOf_eq_none (h : c ∉ ['<', '[', '(', '{']) : n.closerOf c = none := by
  simp only [List.mem_cons, List.not_mem_nil, or_false, not_or] at h
  obtain ⟨h1, h2, h3, h4⟩ := h
  obtain ⟨a, b, p, r, -, -, -⟩ := n
  unfold Nesting.closerOf Nesting.pairs
  cases a <;> cases b <;> cases p <;> cases r <;>
    simp [Ne.symm h1, Ne.symm h2, Ne.symm h3, Ne.symm h4]

theorem isCloser_eq_false (h : c ∉ ['>', ']', ')', '}']) : n.isCloser c = false := by
  simp only [List.mem_cons, List.not_mem_nil, or_false, not_or] at h
  obtain ⟨h1, h2, h3, h4⟩ := h
  obtain ⟨a, b, p, r, -, -, -⟩ := n
  unfold Nesting.isCloser Nesting.pairs
  cases a <;> cases b <;> cases p <;> cases r <;>
    simp [Ne.symm h1, Ne.symm h2, Ne.symm h3, Ne.symm h4]

/-- The characters a balanced scan may treat specially, whatever it keeps track of: the
escape, the quotes, the comment slash and every bracket. -/
def scanMarks : List Char := ['\\', '"', '\x27', '/', '<', '[', '(', '{', '>', ']', ')', '}']

theorem balanced_quiet (ht : t ∈ scanMarks) (hc : c ∉ scanMarks) (rest : List Char) :
    balanced n t [] (c :: rest) = balanced n t [] rest := by
  have hne : ∀ d ∈ scanMarks, c ≠ d := fun d hd heq => hc (heq ▸ hd)
  have hopen : c ∉ ['<', '[', '(', '{'] := by
    intro hm
    simp only [List.mem_cons, List.not_mem_nil, or_false] at hm
    rcases hm with rfl | rfl | rfl | rfl <;> exact hne _ (by decide) rfl
  have hclose : c ∉ ['>', ']', ')', '}'] := by
    intro hm
    simp only [List.mem_cons, List.not_mem_nil, or_false] at hm
    rcases hm with rfl | rfl | rfl | rfl <;> exact hne _ (by decide) rfl
  have hslash : c ≠ '/' := hne _ (by decide)
  rw [balanced_ordinary (fun h => hne t ht h.2) (hne _ (by decide))
    (fun h => h.1.elim (hne _ (by decide)) (hne _ (by decide)))
    (fun h => hslash h.1) (fun h => hslash h.1), closerOf_eq_none hopen, Option.elim_none,
    isCloser_eq_false hclose]
  rfl

theorem balanced_quiet_append (ht : t ∈ scanMarks) {w : List Char} (hw : ∀ c ∈ w, c ∉ scanMarks)
    (rest : List Char) : balanced n t [] (w ++ rest) = balanced n t [] rest := by
  induction w with
  | nil => rfl
  | cons c w ih =>
    rw [List.cons_append, balanced_quiet ht (hw c (List.mem_cons_self ..)),
      ih (fun d hd => hw d (List.mem_cons_of_mem _ hd))]

theorem balanced_escaped (ht : '\\' ≠ t) (c : Char) (rest : List Char) :
    balanced n t [] ('\\' :: c :: rest) = balanced n t [] rest := by
  rw [balanced_backslash (fun h => ht h.2), List.drop_succ_cons, List.drop_zero]

end Quiet

theorem nested_of_balanced {n : Nesting} {t : Char} {w r : List Char}
    (h : balanced n t [] (w ++ t :: r) = some (t :: r)) :
    nested n t (w ++ t :: r) = some (String.ofList w, t :: r) := by
  have hw : (w ++ t :: r).take ((w ++ t :: r).length - (t :: r).length) = w := by simp
  rw [nested, h, Option.map_some, hw]

/-- What `nested` reads is followed by the terminator, and it reads the same text in front of
the terminator and any other rest. -/
theorem nested_frame {n : Nesting} {t : Char} {cs after : List Char} {s : String}
    (h : nested n t cs = some (s, after)) :
    ∃ r, after = t :: r ∧ cs = s.toList ++ t :: r ∧
      ∀ r', nested n t (s.toList ++ t :: r') = some (s, t :: r') := by
  unfold nested at h
  cases hb : balanced n t [] cs with
  | none =>
    rw [hb] at h
    cases h
  | some out =>
    rw [hb, Option.map_some, Option.some.injEq, Prod.mk.injEq] at h
    obtain ⟨hs, rfl⟩ := h
    obtain ⟨r, rfl, w, rfl⟩ := balanced_suffix hb
    have hw : (w ++ t :: r).take ((w ++ t :: r).length - (t :: r).length) = w := by simp
    rw [hw] at hs
    subst hs
    refine ⟨r, rfl, by rw [String.toList_ofList], fun r' => ?_⟩
    rw [String.toList_ofList, nested_of_balanced (balanced_frame hb w rfl r')]

end TreeQuery.Selector
