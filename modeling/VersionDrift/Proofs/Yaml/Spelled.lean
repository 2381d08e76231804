import VersionDrift.Proofs.Manifest.Rewriting
import VersionDrift.Proofs.Yaml.Shifted

/-!
# Scalars that tokens spell

A quoted token without line breaks reads as the value it spells, and the reading ends
after it. A bare token is read over when it is the whole scalar; then what follows adds
nothing, and adds nothing to another word either.
-/

set_option autoImplicit false

namespace VersionDrift

theorem Text.mem_replaceChar_of_ne {c d : Char} {t : Text} (by_ : Text) (hd : d ≠ c) (h : d ∈ t) :
    d ∈ replaceChar c by_ t := by
  induction t with
  | nil => cases h
  | cons e t ih =>
    unfold replaceChar
    rcases List.mem_cons.mp h with rfl | h
    · rw [if_neg hd]
      exact List.mem_cons_self
    · split
      · exact List.mem_append_right _ (ih h)
      · exact List.mem_cons_of_mem _ (ih h)

namespace Yaml

def IsVersionLetter (c : Char) : Prop := c.isDigit = true ∨ c = '.'

section

variable {c d : Char}

theorem IsVersionLetter.ne (hc : IsVersionLetter c) (hdigit : d.isDigit = false)
    (hpoint : d ≠ '.') : c ≠ d := by
  rintro rfl
  rcases hc with h | h
  · rw [h] at hdigit
    cases hdigit
  · exact hpoint h

theorem IsVersionLetter.isBlank (hc : IsVersionLetter c) : Yaml.isBlank c = false := by
  simp [Yaml.isBlank, hc.ne (d := ' ') rfl (by decide), hc.ne (d := '\t') rfl (by decide)]

theorem IsVersionLetter.isBreak (hc : IsVersionLetter c) : Yaml.isBreak c = false := by
  simp [Yaml.isBreak, hc.ne (d := '\n') rfl (by decide), hc.ne (d := '\u2028') rfl (by decide),
    hc.ne (d := '\u2029') rfl (by decide)]

theorem IsVersionLetter.isFlowIndicator (hc : IsVersionLetter c) :
    Yaml.isFlowIndicator c = false := by
  simp [Yaml.isFlowIndicator, hc.ne (d := ',') rfl (by decide), hc.ne (d := '[') rfl (by decide),
    hc.ne (d := ']') rfl (by decide), hc.ne (d := '\x7b') rfl (by decide),
    hc.ne (d := '\x7d') rfl (by decide)]

end

namespace QuotedScalar

section

variable {c : Char} {t : Text} {line column : Nat} (acc cs : Text)

theorem readSingle_blank (hblank : isBlank c = true) :
    readSingle (c :: t) line column acc (.blanks cs) =
      readSingle t line (column + 1) acc (.blanks (cs ++ [c])) := by
  rw [readSingle, if_pos hblank]
  rfl

theorem readSingle_letter (hblank : isBlank c = false) (hbreak : isBreak c = false) (hc : c ≠ '\'')
    (hcolumn : 0 < column) : readSingle (c :: t) line column acc (.blanks cs) =
      readSingle t line (column + 1) (c :: (cs.reverse ++ acc)) (.blanks []) := by
  rw [readSingle]
  simp [hblank, hbreak, hc, Nat.pos_iff_ne_zero.mp hcolumn]

theorem readSingle_quotes (hcolumn : 0 < column) :
    readSingle ('\'' :: '\'' :: t) line column acc (.blanks cs) =
      readSingle t line (column + 2) ('\'' :: (cs.reverse ++ acc)) (.blanks []) := by
  rw [readSingle]
  simp [isBlank, isBreak, Nat.pos_iff_ne_zero.mp hcolumn]

theorem readSingle_end (ht : t.head? ≠ some '\'') (hcolumn : 0 < column) :
    readSingle ('\'' :: t) line column acc (.blanks cs) =
      .ok (acc.reverse ++ cs, ⟨t, line, column + 1⟩) := by
  rw [readSingle]
  cases t with
  | nil => simp [isBlank, isBreak, Nat.pos_iff_ne_zero.mp hcolumn]
  | cons d t =>
    have hd : d ≠ '\'' := fun h => ht (by rw [h]; rfl)
    simp [isBlank, isBreak, Nat.pos_iff_ne_zero.mp hcolumn, hd]

end

theorem readSingle_doubled {value : Text} (hbreaks : ∀ c ∈ value, isBreak c = false)
    (line column : Nat) (acc cs : Text) (hcolumn : 0 < column) :
    ∃ k acc' cs', 0 < k ∧ acc'.reverse ++ cs' = acc.reverse ++ cs ++ value ∧
      ∀ r, readSingle (Text.replaceChar '\'' ['\'', '\''] value ++ r) line column acc (.blanks cs) =
        readSingle r line k acc' (.blanks cs') := by
  induction value generalizing column acc cs with
  | nil => exact ⟨column, acc, cs, hcolumn, by rw [List.append_nil], fun _ => rfl⟩
  | cons c value ih =>
    have hrest := @ih fun d hd => hbreaks d (List.mem_cons_of_mem _ hd)
    by_cases hc : c = '\''
    · subst hc
      obtain ⟨k, acc', cs', hk, htext, hread⟩ :=
        hrest (column + 2) ('\'' :: (cs.reverse ++ acc)) [] (by omega)
      refine ⟨k, acc', cs', hk, by simpa using htext, fun r => ?_⟩
      rw [Text.replaceChar, if_pos rfl, List.append_assoc]
      exact (readSingle_quotes acc cs hcolumn).trans (hread r)
    rw [Text.replaceChar, if_neg hc]
    cases hblank : isBlank c with
    | true =>
      obtain ⟨k, acc', cs', hk, htext, hread⟩ := hrest (column + 1) acc (cs ++ [c]) (by omega)
      exact ⟨k, acc', cs', hk, by simpa using htext, fun r =>
        (readSingle_blank acc cs hblank).trans (hread r)⟩
    | false =>
      obtain ⟨k, acc', cs', hk, htext, hread⟩ :=
        hrest (column + 1) (c :: (cs.reverse ++ acc)) [] (by omega)
      exact ⟨k, acc', cs', hk, by simpa using htext, fun r =>
        (readSingle_letter acc cs hblank (hbreaks c List.mem_cons_self) hc hcolumn).trans (hread r)⟩

theorem readSingle_spelled {value r : Text} (hbreaks : ∀ c ∈ value, isBreak c = false)
    (hr : r.head? ≠ some '\'') (line column : Nat) (acc cs : Text) (hcolumn : 0 < column) :
    ∃ k, readSingle (Text.replaceChar '\'' ['\'', '\''] value ++ '\'' :: r) line column acc
      (.blanks cs) = .ok (acc.reverse ++ cs ++ value, ⟨r, line, k⟩) := by
  obtain ⟨k, acc', cs', hk, htext, hread⟩ := readSingle_doubled hbreaks line column acc cs hcolumn
  exact ⟨k + 1, by rw [hread, readSingle_end acc' cs' hr hk, htext]⟩

def escaped (value : Text) : Text :=
  Text.replaceChar '"' ['\\', '"'] (Text.replaceChar '\\' ['\\', '\\'] value)

theorem escaped_cons (c : Char) (value : Text) : escaped (c :: value) =
    (if c = '\\' || c = '"' then ['\\', c] else [c]) ++ escaped value := by
  by_cases hescape : c = '\\'
  · subst hescape
    simp [escaped]
  · by_cases hquote : c = '"'
    · subst hquote
      simp [escaped]
    · simp [escaped, hescape, hquote]

theorem escaped_of_not_mem {value : Text} (hquote : '"' ∉ value) (hescape : '\\' ∉ value) :
    escaped value = value := by
  rw [escaped, Text.replaceChar_of_not_mem _ hescape, Text.replaceChar_of_not_mem _ hquote]

section

variable {c : Char} {t : Text} {line column : Nat} (acc cs : Text)

theorem readDouble_blank (hblank : isBlank c = true) :
    readDouble (c :: t) line column acc (.blanks cs) .none =
      readDouble t line (column + 1) acc (.blanks (cs ++ [c])) .none := by
  rw [readDouble, if_pos hblank]
  rfl

theorem readDouble_letter (hblank : isBlank c = false) (hbreak : isBreak c = false)
    (hescape : c ≠ '\\') (hquote : c ≠ '"') (hcolumn : 0 < column) :
    readDouble (c :: t) line column acc (.blanks cs) .none =
      readDouble t line (column + 1) (c :: (cs.reverse ++ acc)) (.blanks []) .none := by
  rw [readDouble]
  simp [hblank, hbreak, hescape, hquote, Nat.pos_iff_ne_zero.mp hcolumn]

theorem readDouble_escape (hc : c = '\\' ∨ c = '"') (hcolumn : 0 < column) :
    readDouble ('\\' :: c :: t) line column acc (.blanks cs) .none =
      readDouble t line (column + 2) (c :: (cs.reverse ++ acc)) (.blanks []) .none := by
  have hbegun : readDouble ('\\' :: c :: t) line column acc (.blanks cs) .none =
      readDouble (c :: t) line (column + 1) (cs.reverse ++ acc) (.blanks []) .begun := by
    rw [readDouble]
    simp [isBlank, isBreak, Nat.pos_iff_ne_zero.mp hcolumn]
  rw [hbegun]
  rcases hc with rfl | rfl <;> rfl

theorem readDouble_end (hcolumn : 0 < column) :
    readDouble ('"' :: t) line column acc (.blanks cs) .none =
      .ok (acc.reverse ++ cs, ⟨t, line, column + 1⟩) := by
  rw [readDouble]
  simp [isBlank, isBreak, Nat.pos_iff_ne_zero.mp hcolumn]

end

theorem readDouble_escaped {value r : Text} (hbreaks : ∀ c ∈ value, isBreak c = false)
    (line column : Nat) (acc cs : Text) (hcolumn : 0 < column) :
    ∃ k, readDouble (escaped value ++ '"' :: r) line column acc (.blanks cs) .none =
      .ok (acc.reverse ++ cs ++ value, ⟨r, line, k⟩) := by
  induction value generalizing column acc cs with
  | nil => exact ⟨column + 1, by rw [List.append_nil]; exact readDouble_end acc cs hcolumn⟩
  | cons c value ih =>
    have hrest := @ih fun d hd => hbreaks d (List.mem_cons_of_mem _ hd)
    rw [escaped_cons]
    by_cases hmark : c = '\\' ∨ c = '"'
    · obtain ⟨k, hk⟩ := hrest (column + 2) (c :: (cs.reverse ++ acc)) [] (by omega)
      refine ⟨k, ?_⟩
      rw [if_pos (by simpa using hmark), List.append_assoc, List.cons_append, List.singleton_append,
        readDouble_escape acc cs hmark hcolumn, hk]
      simp
    rw [if_neg (by simpa using hmark), List.append_assoc, List.singleton_append]
    rw [not_or] at hmark
    cases hblank : isBlank c with
    | true =>
      obtain ⟨k, hk⟩ := hrest (column + 1) acc (cs ++ [c]) (by omega)
      refine ⟨k, ?_⟩
      rw [readDouble_blank acc cs hblank, hk]
      simp
    | false =>
      obtain ⟨k, hk⟩ := hrest (column + 1) (c :: (cs.reverse ++ acc)) [] (by omega)
      refine ⟨k, ?_⟩
      have hbreak := hbreaks c List.mem_cons_self
      rw [readDouble_letter acc cs hblank hbreak hmark.1 hmark.2 hcolumn, hk]
      simp

theorem isBreak_of_singleQuoted {value : Text}
    (h : ∀ c ∈ Style.singleQuoted value, isBreak c = false) : ∀ c ∈ value, isBreak c = false := by
  intro c hc
  by_cases hquote : c = '\''
  · rw [hquote]
    rfl
  · exact h c (by simp [Style.singleQuoted, Text.mem_replaceChar_of_ne _ hquote hc])

/-- A quoted token reads as the value it spells. -/
theorem read_spelled {style : Style} {token value r : Text} (h : style.Spells token value)
    (hstyle : style ≠ .plain) (hbreaks : ∀ c ∈ token, isBreak c = false)
    (hr : style = .single → r.head? ≠ some '\'') (line column : Nat) :
    ∃ k, read (style = .single) ⟨token ++ r, line, column⟩ = .ok (value, ⟨r, line, k⟩) := by
  cases h with
  | plain => exact absurd rfl hstyle
  | single =>
    obtain ⟨k, hk⟩ := readSingle_spelled (isBreak_of_singleQuoted hbreaks) (hr rfl) line
      (column + 1) [] [] (by omega)
    refine ⟨k, ?_⟩
    simpa [read, Style.singleQuoted] using hk
  | double hquote hescape =>
    have hvalue (c : Char) (hc : c ∈ value) : isBreak c = false := hbreaks c (by simp [hc])
    obtain ⟨k, hk⟩ := readDouble_escaped hvalue (r := r) line (column + 1) [] [] (by omega)
    refine ⟨k, ?_⟩
    rw [escaped_of_not_mem hquote hescape] at hk
    simpa [read] using hk

end QuotedScalar

namespace PlainScalar

variable {inFlow : Bool} {indent line column : Nat} {t u acc : Text} {gap : Gap} {p : PlainScalar}

theorem length_text (h : readFrom inFlow indent t line column acc gap = .ok p) :
    acc.length ≤ p.text.length := by
  fun_induction readFrom with
  | case1 => cases h; simp
  | case2 => cases h
  | case3 _ _ _ _ _ _ _ _ ih => exact ih h
  | case4 _ _ _ _ _ _ _ _ ih => exact ih h
  | case5 => cases h; simp
  | case6 => cases h
  | case7 => cases h; simp
  | case8 _ _ _ _ _ _ _ _ _ _ _ ih =>
    have hrest := ih h
    simp only [List.length_cons, List.length_append] at hrest
    omega

theorem text_ne {c : Char}
    (h : readFrom inFlow indent t line column (c :: (u ++ acc)) gap = .ok p) :
    p.text ≠ acc.reverse := by
  intro htext
  have hlength := length_text h
  rw [htext] at hlength
  simp only [List.length_cons, List.length_append, List.length_reverse] at hlength
  omega

theorem readFrom_blank {c : Char} (hblank : isBlank c = true) (cs : Text) :
    readFrom inFlow indent (c :: t) line column acc (.blanks cs) =
      readFrom inFlow indent t line (column + 1) acc (.blanks (cs ++ [c])) := by
  rw [readFrom, if_pos hblank]
  rfl

theorem readFrom_letter {c : Char} (hblank : ¬isBlank c = true) (hbreak : isBreak c = false)
    (cs : Text) : readFrom inFlow indent (c :: t) line column acc (.blanks cs) =
      if cs ≠ [] ∧ stopsAfterGap inFlow indent column (c :: t) = true then
        .ok ⟨acc.reverse, ⟨c :: t, line, column⟩, false⟩
      else if (inFlow && badColon (c :: t)) = true then .error .colonInsideFlow
      else if atEnd inFlow (c :: t) = true then .ok ⟨acc.reverse, ⟨c :: t, line, column⟩, false⟩
      else readFrom inFlow indent t line (column + 1) (c :: (cs.reverse ++ acc)) (.blanks []) := by
  rw [readFrom, if_neg hblank, if_neg (by simp [hbreak])]
  cases cs with
  | nil => simp
  | cons d cs => simp

theorem readFrom_token (column : Nat) (acc cs : Text) (hbreaks : ∀ c ∈ u, isBreak c = false)
    (hlast : ∀ c ∈ u.getLast?, isBlank c = false) (hcs : u = [] → cs = [])
    (hblanks : ∀ c ∈ cs, isBlank c = true)
    (h : readFrom inFlow indent (u ++ t) line column acc (.blanks cs) = .ok p)
    (htext : p.text = acc.reverse ++ cs ++ u) :
    readFrom inFlow indent t line (column + u.length) ((cs ++ u).reverse ++ acc) .empty = .ok p ∧
      Scalar.IsCommentFree (cs ++ u) := by
  induction u generalizing column acc cs with
  | nil =>
    obtain rfl := hcs rfl
    exact ⟨h, Scalar.isCommentFree_nil⟩
  | cons c u ih =>
    have hbreak := hbreaks c List.mem_cons_self
    have hbreaks' (d : Char) (hd : d ∈ u) := hbreaks d (List.mem_cons_of_mem _ hd)
    have hlast' (d : Char) (hd : d ∈ u.getLast?) : isBlank d = false :=
      hlast d (by rw [List.getLast?_cons, Option.mem_def.mp hd]; rfl)
    have hstop : p.text ≠ acc.reverse := by
      intro heq
      have hlength := congrArg List.length (heq.symm.trans htext)
      simp only [List.length_append, List.length_cons, List.length_reverse] at hlength
      omega
    rw [List.cons_append] at h
    by_cases hblank : isBlank c = true
    · have hne : u ≠ [] := by
        rintro rfl
        have hend := hlast c rfl
        rw [hblank] at hend
        cases hend
      rw [readFrom_blank hblank] at h
      have hread := ih (column + 1) acc (cs ++ [c]) hbreaks' hlast' (fun hu => absurd hu hne)
        (List.forall_mem_append.mpr ⟨hblanks, by simpa using hblank⟩) h (by rw [htext]; simp)
      simpa [Nat.add_assoc, Nat.add_comm 1] using hread
    rw [readFrom_letter hblank hbreak] at h
    split at h
    · cases h
      exact absurd rfl hstop
    next hgap =>
    split at h
    · cases h
    split at h
    · cases h
      exact absurd rfl hstop
    obtain ⟨hread, hfree⟩ := ih (column + 1) (c :: (cs.reverse ++ acc)) [] hbreaks' hlast'
      (fun _ => rfl) (by simp) h (by rw [htext]; simp)
    refine ⟨by simpa [Nat.add_assoc, Nat.add_comm 1] using hread, ?_⟩
    refine hfree.blanks_append hblanks (Bool.eq_false_iff.mpr hblank) ?_
    rintro rfl
    exact Decidable.byContradiction fun hne => hgap ⟨hne, by simp [stopsAfterGap]⟩

theorem readFrom_word (column : Nat) (acc : Text) (hword : ∀ c ∈ u, IsVersionLetter c) :
    readFrom inFlow indent (u ++ t) line column acc .empty =
      readFrom inFlow indent t line (column + u.length) (u.reverse ++ acc) .empty := by
  induction u generalizing column acc with
  | nil => rfl
  | cons c u ih =>
    have hrest := ih (column + 1) (c :: acc) fun d hd => hword d (List.mem_cons_of_mem _ hd)
    have hc := hword c List.mem_cons_self
    have hcolon : c ≠ ':' := hc.ne rfl (by decide)
    have hbad : badColon (c :: (u ++ t)) = false := by
      rw [Forked.badColon_cons, decide_eq_false hcolon, Bool.false_and]
    have hend : atEnd inFlow (c :: (u ++ t)) = false := by
      simp only [atEnd, hcolon, hc.isFlowIndicator, decide_false, Bool.false_and, Bool.and_false,
        Bool.or_self]
    calc readFrom inFlow indent (c :: u ++ t) line column acc .empty
        = readFrom inFlow indent (u ++ t) line (column + 1) (c :: acc) .empty := by
          rw [List.cons_append, readFrom, hc.isBlank, hc.isBreak, hbad, hend]
          simp
      _ = _ := by
          rw [hrest]
          simp [Nat.add_assoc, Nat.add_comm 1]

theorem stopsAfterGap_column {c : Char} {column' : Nat} (hblank : ¬isBlank c = true)
    (hbreak : ¬isBreak c = true) (hcolumn : column' = column ∨ atLineEnd (c :: t) = true) :
    stopsAfterGap inFlow indent column' (c :: t) = stopsAfterGap inFlow indent column (c :: t) := by
  rcases hcolumn with rfl | hend
  · rfl
  · rcases atLineEnd_cons hend with ⟨h, -⟩ | rfl | h
    · exact absurd h hblank
    · simp [stopsAfterGap]
    · exact absurd h hbreak

/-- When nothing more is added to a word, nothing is added to another one either; the columns
count as long as the line has not ended. -/
theorem readFrom_after (column' : Nat) (acc' : Text)
    (h : readFrom inFlow indent t line column acc gap = .ok p) (htext : p.text = acc.reverse)
    (hcolumn : column' = column ∨ gap.hasBreak = false ∧ atLineEnd t = true) :
    ∃ q, readFrom inFlow indent t line column' acc' gap = .ok q ∧ q.text = acc'.reverse ∧
      q.brokenOff = p.brokenOff ∧ p.rest.Shifted q.rest := by
  induction t generalizing line column column' gap with
  | nil =>
    cases h
    exact ⟨_, rfl, rfl, rfl, rfl, rfl, .inr rfl⟩
  | cons c t ih =>
    rw [readFrom] at h ⊢
    by_cases hblank : isBlank c = true
    · rw [if_pos hblank] at h ⊢
      have htab : (gap.hasBreak && decide (column' < indent) && decide (c = '\t')) =
          (gap.hasBreak && decide (column < indent) && decide (c = '\t')) := by
        rcases hcolumn with rfl | ⟨hgap, -⟩
        · rfl
        · rw [hgap]
          rfl
      rw [htab]
      split at h
      · cases h
      · next hno =>
        rw [if_neg hno]
        refine ih (column' + 1) h ?_
        rcases hcolumn with rfl | ⟨hgap, hend⟩
        · exact .inl rfl
        · refine .inr ⟨?_, by rwa [atLineEnd_cons_of_isBlank hblank] at hend⟩
          cases gap with
          | blanks cs => rfl
          | breaks first more => cases hgap
    rw [if_neg hblank] at h ⊢
    by_cases hbreak : isBreak c = true
    · rw [if_pos hbreak] at h ⊢
      exact ih 0 h (.inl rfl)
    rw [if_neg hbreak] at h ⊢
    have hcolumn := hcolumn.imp_right And.right
    have hshift : Cursor.Shifted ⟨c :: t, line, column⟩ ⟨c :: t, line, column'⟩ :=
      ⟨rfl, rfl, hcolumn⟩
    rw [stopsAfterGap_column hblank hbreak hcolumn]
    split at h
    · next hgap =>
      cases h
      rw [if_pos hgap]
      exact ⟨_, rfl, rfl, rfl, hshift⟩
    next hgap =>
    rw [if_neg hgap]
    split at h
    · cases h
    next hcolon =>
    rw [if_neg hcolon]
    split at h
    · next hend =>
      cases h
      rw [if_pos hend]
      exact ⟨_, rfl, rfl, rfl, hshift⟩
    · exact absurd htext (text_ne h)

/-- Another word in place of a token that is the whole scalar is the whole scalar again. -/
theorem read_replaced {token word r : Text} (hbreaks : ∀ c ∈ token, isBreak c = false)
    (hlast : ∀ c ∈ token.getLast?, isBlank c = false)
    (hword : ∀ c ∈ word, IsVersionLetter c) (hend : atLineEnd r = true)
    (h : read inFlow indent ⟨token ++ r, line, column⟩ = .ok p) (htext : p.text = token) :
    ∃ q, read inFlow indent ⟨word ++ r, line, column⟩ = .ok q ∧ q.text = word ∧
      q.brokenOff = p.brokenOff ∧ p.rest.Shifted q.rest := by
  obtain ⟨hread, -⟩ := readFrom_token column [] [] hbreaks hlast (fun _ => rfl) (by simp) h
    (by simp [htext])
  obtain ⟨q, hq, hqtext, hq'⟩ := readFrom_after (column + word.length) word.reverse hread
    (by simp [htext]) (.inr ⟨rfl, hend⟩)
  refine ⟨q, ?_, by rw [hqtext, List.reverse_reverse], hq'⟩
  unfold read
  rw [readFrom_word _ _ hword, List.append_nil]
  exact hq

end PlainScalar
end Yaml
end VersionDrift
