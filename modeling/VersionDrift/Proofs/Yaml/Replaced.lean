import VersionDrift.Proofs.Manifest.Dotted
import VersionDrift.Proofs.Yaml.Bare
import VersionDrift.Proofs.Yaml.Breaks
import VersionDrift.Proofs.Yaml.Spelled

/-!
# One scalar replaced

A layout that stands before the blanks and the token of a scalar reads another token
there as another scalar of the same style, and goes on in the same way.
-/

set_option autoImplicit false

namespace VersionDrift.Yaml

def scalarStyle : Style → ScalarStyle
  | .plain => .plain
  | .single => .singleQuoted
  | .double => .doubleQuoted

theorem breaksLine_encode (style : Style) (v : Triple) :
    ∀ c ∈ style.encode v.dotted, breaksLine c = false := by
  intro c hc
  rcases Triple.mem_encode hc with hdigit | rfl | rfl | rfl
  · have hletter : IsVersionLetter c := .inl hdigit
    simp [breaksLine, hletter.isBreak, hletter.ne (d := '\r') rfl (by decide),
      hletter.ne (d := '\x85') rfl (by decide)]
  all_goals rfl

theorem skipSpace_gap {inFlow : Bool} {line : Nat} {keyAllowed : Bool} {gap : Text}
    (hgap : ∀ c ∈ gap, Text.isGap c = true) (column : Nat) :
    (∀ t, (skipSpace inFlow (gap ++ t) line column keyAllowed false).1.rest.head? = some '\t') ∨
      ∀ c t, isBlank c = false → isBreak c = false → c ≠ '#' → 0 < column + gap.length →
        skipSpace inFlow (gap ++ c :: t) line column keyAllowed false =
          (⟨c :: t, line, column + gap.length⟩, keyAllowed) := by
  induction gap generalizing column with
  | nil =>
    refine .inr fun c t hblank hbreak hsharp hcolumn => ?_
    simp only [isBlank, Bool.or_eq_false_iff, decide_eq_false_iff_not] at hblank
    have h0 : column ≠ 0 := by simpa [Nat.pos_iff_ne_zero] using hcolumn
    simp [skipSpace, hblank, hbreak, hsharp, h0]
  | cons d gap ih =>
    have hd := hgap d List.mem_cons_self
    have hbreak : isBreak d = false := by
      simp only [Text.isGap, Bool.or_eq_true, decide_eq_true_eq] at hd
      rcases hd with rfl | rfl <;> rfl
    have hmark : d ≠ byteOrderMark := by
      rintro rfl
      cases hd
    have hstep (t : Text) : skipSpace inFlow (d :: t) line column keyAllowed false =
        if d = ' ' || (d = '\t' && (inFlow || !keyAllowed)) then
          skipSpace inFlow t line (column + 1) keyAllowed false
        else (⟨d :: t, line, column⟩, keyAllowed) := by
      have hsharp : d ≠ '#' := by
        rintro rfl
        cases hd
      simp [skipSpace, hbreak, hmark, hsharp]
    by_cases hskip : (decide (d = ' ') || (decide (d = '\t') && (inFlow || !keyAllowed))) = true
    · rcases ih (fun c hc => hgap c (List.mem_cons_of_mem _ hc)) (column + 1) with htab | hpass
      · refine .inl fun t => ?_
        rw [List.cons_append, hstep, if_pos hskip]
        exact htab t
      · refine .inr fun c t hblank hbreak hsharp _ => ?_
        rw [List.cons_append, hstep, if_pos hskip, hpass c t hblank hbreak hsharp (by omega)]
        simp [Nat.add_assoc, Nat.add_comm 1]
    · refine .inl fun t => ?_
      rw [List.cons_append, hstep, if_neg hskip]
      simp only [Text.isGap, Bool.or_eq_true, decide_eq_true_eq] at hd
      simp only [Bool.or_eq_true, decide_eq_true_eq, not_or] at hskip
      rw [hd.resolve_left hskip.1]
      rfl

namespace Layout

variable {s r : Layout} {c : Char} {t : Text}

theorem emitted_take {prep : Except Error Layout} {note : Layout → Layout} {k : Nat} {u : Token}
    (h : (prep >>= fun q => .ok ((note q).take k u)) = .ok r) : r.emitted.head? = some u := by
  obtain ⟨q, -, h⟩ := bind_eq_ok h
  cases h
  rfl

theorem plainScalar_of_token {value : Text} (hbegins : Scalar.beginsNoValue c = false)
    (hcolumn : s.cursor.column ≠ 0) (h : s.token c t = .ok r)
    (hhead : r.emitted.head? = some (.scalar value .plain)) : s.plainScalar = .ok r := by
  simp only [Scalar.beginsNoValue, Bool.or_eq_false_iff, decide_eq_false_iff_not, List.mem_cons,
    List.not_mem_nil, or_false, not_or] at hbegins
  obtain ⟨⟨h1, h2, h3, h4, h5, h6, h7, h8, h9, h10⟩, -⟩ := hbegins
  have hother {prep : Except Error Layout} {note : Layout → Layout} {u : Token}
      (hu : u ≠ .scalar value .plain)
      (hq : (prep >>= fun q => .ok ((note q).take 1 u)) = .ok r) : s.plainScalar = .ok r := by
    rw [emitted_take hq] at hhead
    exact absurd (Option.some.inj hhead) hu
  unfold token at h
  simp only [hcolumn, h2, h3, h4, h5, h6, h7, h8, h9, h10, decide_false, Bool.false_and, if_false,
    Bool.false_eq_true] at h
  split at h
  · exact hother (by simp) h
  split at h
  · exact hother (by simp) h
  split at h
  · exact hother (by simp) h
  split at h
  · exact hother (by simp) h
  split at h
  · exact hother (by simp) h
  split at h
  · exact hother (by simp) h
  split at h
  · exact h
  · cases h

theorem token_of_isDigit (hc : c.isDigit = true) : s.token c t = s.plainScalar := by
  have hne (d : Char) (hd : d.isDigit = false) : c ≠ d := by
    rintro rfl
    rw [hc] at hd
    cases hd
  have hletter : IsVersionLetter c := .inl hc
  have hplain : startsPlain s.inFlow c t = true := by
    have hindicator : c ∉ ",[]\x7b\x7d#&*!|>'\"%@\x60".toList := by
      intro hmem
      have hall : ∀ d ∈ ",[]\x7b\x7d#&*!|>'\"%@\x60".toList, d.isDigit = false := by simp
      rw [hall c hmem] at hc
      cases hc
    simp only [startsPlain, hne '-' rfl, hne '?' rfl, hne ':' rfl, hletter.isBlank,
      hletter.isBreak, hindicator, decide_false, Bool.or_self, Bool.not_false, if_false,
      Bool.false_eq_true]
  unfold token
  simp only [hne '%' rfl, hne '-' rfl, hne '.' rfl, hne '[' rfl, hne '\x7b' rfl, hne ']' rfl,
    hne '\x7d' rfl, hne ',' rfl, hne '?' rfl, hne ':' rfl, hne '*' rfl, hne '&' rfl, hne '!' rfl,
    hne '|' rfl, hne '>' rfl, hne '\'' rfl, hne '"' rfl, hplain, decide_false, Bool.and_false,
    Bool.false_and, Bool.false_eq_true, if_false, if_true]

theorem token_quote (single : Bool) :
    s.token (if single then '\'' else '"') t = s.quotedScalar single := by
  cases single <;> simp [token]

theorem shifted_of_scalar {old new : Text} {style : ScalarStyle} {c d : Cursor} {q : Layout}
    (hbare : q.Bare) (b : Bool) (h : c.Shifted d) :
    Shifted old new 1 (((q.allowKey b).emit (.scalar old style)).withCursor c)
      (((q.allowKey b).emit (.scalar new style)).withCursor d) := by
  refine ⟨h, rfl, rfl, rfl, rfl, rfl, ?_⟩
  exact .cons (.scalar style) (.refl q.emitted) (.inr hbare)

variable {old : Text} {v : Triple} {rest : Text} {line column : Nat}

theorem noteCandidate_withCursor {c d : Cursor} (hq : (s.withCursor c).noteCandidate = .ok r)
    (hline : d.line = c.line) (hcolumn : d.column = c.column) :
    r.cursor = c ∧ (s.withCursor d).noteCandidate = .ok (r.withCursor d) := by
  refine ⟨Steady.noteCandidate.cursor_eq hq, ?_⟩
  have hsteady := Steady.noteCandidate (s.withCursor c) d hline hcolumn
  rw [hq] at hsteady
  exact hsteady

theorem quotedScalar_replaced {style : Style} {token token' new : Text}
    (h : style.Spells token old) (h' : style.Spells token' new) (hstyle : style ≠ .plain)
    (hbreaks : ∀ c ∈ token, isBreak c = false) (hbreaks' : ∀ c ∈ token', isBreak c = false)
    (hrest : atLineEnd rest = true) (hbare : s.Bare)
    (hr : (s.withCursor ⟨token ++ rest, line, column⟩).quotedScalar (style = .single) = .ok r) :
    ∃ r', (s.withCursor ⟨token' ++ rest, line, column⟩).quotedScalar (style = .single) = .ok r' ∧
      Shifted old new 1 r r' := by
  have hquote : rest.head? ≠ some '\'' := by
    intro hhead
    cases rest with
    | nil => cases hhead
    | cons c rest =>
      obtain rfl := Option.some.inj hhead
      cases hrest
  obtain ⟨q, hq, hr⟩ := bind_eq_ok hr
  obtain ⟨hcursor, hq'⟩ := noteCandidate_withCursor (d := ⟨token' ++ rest, line, column⟩) hq rfl rfl
  obtain ⟨⟨text, d⟩, hd, hr⟩ := bind_eq_ok hr
  obtain ⟨k, hk⟩ := QuotedScalar.read_spelled h hstyle hbreaks (fun _ => hquote) line column
  obtain ⟨k', hk'⟩ := QuotedScalar.read_spelled h' hstyle hbreaks' (fun _ => hquote) line column
  rw [hcursor, hk] at hd
  cases hd
  cases hr
  have hq : q.Bare := (hbare.withCursor _).noteCandidate hq
  refine ⟨_, ?_, shifted_of_scalar (d := ⟨rest, line, k'⟩) hq false ⟨rfl, rfl, .inr hrest⟩⟩
  unfold quotedScalar
  rw [hq']
  change QuotedScalar.read _ ⟨token' ++ rest, line, column⟩ >>= _ = _
  rw [hk']
  rfl

/-- A version in place of a plain scalar is a plain scalar. -/
theorem plainScalar_replaced {token : Text} (hbreaks : ∀ c ∈ token, isBreak c = false)
    (hlast : ∀ c ∈ token.getLast?, isBlank c = false) (hrest : atLineEnd rest = true)
    (hbare : s.Bare)
    (hr : (s.withCursor ⟨token ++ rest, line, column⟩).plainScalar = .ok r)
    (hhead : r.emitted.head? = some (.scalar token .plain)) :
    ∃ r', (s.withCursor ⟨v.dotted ++ rest, line, column⟩).plainScalar = .ok r' ∧
      Shifted token v.dotted 1 r r' := by
  obtain ⟨q, hq, hr⟩ := bind_eq_ok hr
  obtain ⟨hcursor, hq'⟩ := noteCandidate_withCursor (d := ⟨v.dotted ++ rest, line, column⟩) hq rfl
    rfl
  obtain ⟨p, hp, hr⟩ := bind_eq_ok hr
  cases hr
  have htext : p.text = token := by
    have hscalar : Token.scalar p.text .plain = .scalar token .plain := Option.some.inj hhead
    exact (Token.scalar.inj hscalar).1
  rw [hcursor] at hp
  obtain ⟨p', hp', htext', hbroken, hshift⟩ := PlainScalar.read_replaced hbreaks hlast
    (fun _ => Triple.mem_dotted) hrest hp htext
  subst htext
  refine ⟨_, ?_, shifted_of_scalar ((hbare.withCursor _).noteCandidate hq) p.brokenOff hshift⟩
  unfold plainScalar
  rw [hq']
  change PlainScalar.read q.inFlow (q.columns.head?.elim 0 (· + 1)) ⟨v.dotted ++ rest, line, column⟩
    >>= _ = _
  rw [hp', ← hbroken, ← htext']
  rfl

theorem token_replaced {style : Style} {token : Text} (h : style.Spells token old)
    (hbreaks : ∀ c ∈ token, isBreak c = false) (hrest : atLineEnd rest = true) (hbare : s.Bare)
    (hcolumn : column ≠ 0) (hct : token ++ rest = c :: t)
    (hr : (s.withCursor ⟨token ++ rest, line, column⟩).token c t = .ok r)
    (hhead : r.emitted.head? = some (.scalar old (scalarStyle style))) :
    ∃ c' t' r', style.encode v.dotted ++ rest = c' :: t' ∧
      (c'.isDigit = true ∨ c' = '"' ∨ c' = '\'') ∧
      (s.withCursor ⟨style.encode v.dotted ++ rest, line, column⟩).token c' t' = .ok r' ∧
      Shifted old v.dotted 1 r r' := by
  have hbreaks' (c : Char) (hc : c ∈ style.encode v.dotted) : isBreak c = false :=
    isBreak_of_breaksLine (breaksLine_encode style v c hc)
  cases h with
  | @plain d u begins ends =>
    obtain ⟨rfl, rfl⟩ := List.cons.inj hct
    have hplain := plainScalar_of_token begins hcolumn hr hhead
    obtain ⟨r', hr', hshift⟩ := plainScalar_replaced (v := v) hbreaks ends hrest hbare hplain
      hhead
    obtain ⟨c', t', hdotted, hdigit⟩ := v.dotted_eq_cons
    refine ⟨c', t' ++ rest, r', ?_, .inl hdigit, ?_, hshift⟩
    · rw [v.encode_plain, hdotted, List.cons_append]
    · rw [token_of_isDigit hdigit, v.encode_plain, hr']
  | single =>
    obtain ⟨rfl, rfl⟩ := List.cons.inj hct
    have hquoted := (token_quote true).symm.trans hr
    obtain ⟨r', hr', hshift⟩ := quotedScalar_replaced (.single old) (.single v.dotted) (by decide)
      hbreaks hbreaks' hrest hbare hquoted
    exact ⟨'\'', _, r', rfl, .inr (.inr rfl), (token_quote true).trans hr', hshift⟩
  | double quote escape =>
    obtain ⟨rfl, rfl⟩ := List.cons.inj hct
    have hquote : '"' ∉ v.dotted := Triple.not_mem_dotted (by decide) (by decide)
    have hescape : '\\' ∉ v.dotted := Triple.not_mem_dotted (by decide) (by decide)
    have hquoted := (token_quote false).symm.trans hr
    rw [v.encode_double] at hbreaks' ⊢
    obtain ⟨r', hr', hshift⟩ := quotedScalar_replaced (.double quote escape)
      (.double hquote hescape) (by decide) hbreaks hbreaks' hrest hbare hquoted
    exact ⟨'"', _, r', rfl, .inr (.inl rfl), (token_quote false).trans hr', hshift⟩

theorem skipped_gap {gap u : Text} (hgap : ∀ c ∈ gap, Text.isGap c = true) (hne : gap ≠ [])
    (hs : s.cursor.rest = gap ++ u) (hr : s.next = .ok (some r)) (hblank : isBlank c = false)
    (hbreak : isBreak c = false) (hsharp : c ≠ '#') :
    (s.withCursor ⟨gap ++ c :: t, s.cursor.line, s.cursor.column⟩).skipped =
      s.withCursor ⟨c :: t, s.cursor.line, s.cursor.column + gap.length⟩ := by
  have hlength : 0 < gap.length := List.length_pos_iff.mpr hne
  rcases skipSpace_gap hgap s.cursor.column with htab | hpass
  · have hstop : s.skipped.cursor.rest.head? = some '\t' := by
      have hhead := htab u
      rw [← hs] at hhead
      exact hhead
    have hnone := next_of_tab (fun d hd => Option.some.inj (hd.symm.trans hstop)) hr
    cases hnone
  · have hskip := hpass c t hblank hbreak hsharp (by omega)
    exact congrArg (fun p => ({ s with cursor := p.1, keyAllowed := p.2 } : Layout)) hskip

/-- Another token of the version in place of a scalar is read as another scalar. -/
theorem next_replaced {style : Style} {gap token : Text} (hgap : ∀ c ∈ gap, Text.isGap c = true)
    (hne : gap ≠ []) (h : style.Spells token old) (hbreaks : ∀ c ∈ token, isBreak c = false)
    (hrest : atLineEnd rest = true) (hbare : s.Bare) (hs : s.cursor.rest = gap ++ (token ++ rest))
    (hr : s.next = .ok (some r))
    (hhead : r.emitted.head? = some (.scalar old (scalarStyle style))) :
    ∃ r', (s.withCursor ⟨gap ++ (style.encode v.dotted ++ rest), s.cursor.line,
      s.cursor.column⟩).next = .ok (some r') ∧ Shifted old v.dotted 1 r r' := by
  obtain ⟨c, t, htoken, hblank, hsharp⟩ := h.eq_cons
  have hbreak : isBreak c = false := hbreaks c (by simp [htoken])
  have hskipped : s.skipped = s.withCursor ⟨token ++ rest, s.cursor.line,
      s.cursor.column + gap.length⟩ := by
    have hself : s.withCursor ⟨gap ++ (token ++ rest), s.cursor.line, s.cursor.column⟩ = s :=
      withCursor_of_eq (by rw [← hs])
    have hgap := skipped_gap (t := t ++ rest) hgap hne hs hr hblank hbreak hsharp
    rwa [← List.cons_append, ← htoken, hself] at hgap
  have hhere : s.skipped.tokenHere = .ok (some r) := hr
  rw [hskipped] at hhere
  obtain ⟨q, e, u, hq, heu, htok⟩ := tokenHere_eq_some.mp hhere
  have hcursor := Steady.dropStale.cursor_eq hq
  have hclosed : (q.closeTo (s.cursor.column + gap.length)).withCursor
      ⟨token ++ rest, s.cursor.line, s.cursor.column + gap.length⟩ =
        q.closeTo (s.cursor.column + gap.length) := by
    refine withCursor_of_eq ?_
    rw [closeTo_cursor, hcursor]
    rfl
  have hclosedBare : (q.closeTo (s.cursor.column + gap.length)).Bare :=
    ((hbare.withCursor _).dropStale hq).closeTo _
  have hlength : 0 < gap.length := List.length_pos_iff.mpr hne
  have htok' : ((q.closeTo (s.cursor.column + gap.length)).withCursor
      ⟨token ++ rest, s.cursor.line, s.cursor.column + gap.length⟩).token e u = .ok r := by
    rw [hclosed]
    exact htok
  obtain ⟨c', t', r', hct', hc', hr', hshift⟩ := token_replaced (v := v) h hbreaks hrest hclosedBare
    (by omega) heu htok' hhead
  obtain ⟨hblank', hbreak', hsharp'⟩ : isBlank c' = false ∧ isBreak c' = false ∧ c' ≠ '#' := by
    rcases hc' with hdigit | rfl | rfl
    · have hletter : IsVersionLetter c' := .inl hdigit
      exact ⟨hletter.isBlank, hletter.isBreak, hletter.ne rfl (by decide)⟩
    · decide
    · decide
  have hskipped' := skipped_gap (t := t') hgap hne hs hr hblank' hbreak' hsharp'
  rw [← hct'] at hskipped'
  refine ⟨r', ?_, hshift⟩
  unfold next
  rw [hskipped']
  have hq' : (s.withCursor ⟨style.encode v.dotted ++ rest, s.cursor.line,
      s.cursor.column + gap.length⟩).dropStale = .ok (q.withCursor ⟨style.encode v.dotted ++ rest,
      s.cursor.line, s.cursor.column + gap.length⟩) := by
    have hsteady := Steady.dropStale (s.withCursor ⟨token ++ rest, s.cursor.line,
      s.cursor.column + gap.length⟩) ⟨style.encode v.dotted ++ rest, s.cursor.line,
      s.cursor.column + gap.length⟩ rfl rfl
    rw [hq] at hsteady
    exact hsteady
  exact tokenHere_eq_some.mpr ⟨_, c', t', hq', hct',
    (congrArg (Layout.token c' t') (closeTo_withCursor ..)).trans hr'⟩

end Layout
end VersionDrift.Yaml
