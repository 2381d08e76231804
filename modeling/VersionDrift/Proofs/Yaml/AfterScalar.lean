import VersionDrift.Proofs.Yaml.AfterColon

/-!
# After a scalar

Where a scalar stands on the line of its key, and the next token is another key or the end
of the mapping, nothing but a comment may follow it on the line. So what the reader of
documents takes for a scalar of one line is a token of that line.
-/

set_option autoImplicit false

namespace VersionDrift.Yaml

namespace QuotedScalar

def Passes (line column : Nat) (f : Except Error (Text × Cursor)) : Prop :=
  ∀ text d, f = .ok (text, d) → line < d.line ∨ d.line = line ∧ column < d.column

namespace Passes

variable {line column k : Nat} {f : Except Error (Text × Cursor)}

theorem error {e : Error} : Passes line column (.error e) := nofun

theorem ok {text r : Text} : Passes line column (.ok (text, ⟨r, line, column + 1⟩)) := by
  intro text' d h
  cases h
  exact .inr ⟨rfl, Nat.lt_succ_self column⟩

theorem later (h : Passes line (column + k) f) : Passes line column f := fun text d hd =>
  (h text d hd).imp_right fun hline => ⟨hline.1, by omega⟩

theorem below (h : Passes (line + 1) k f) : Passes line column f := by
  intro text d hd
  rcases h text d hd with hline | ⟨hline, -⟩
  · exact .inl (by omega)
  · exact .inl (by omega)

end Passes

theorem passes_readSingle (t : Text) (line column : Nat) (acc : Text) (gap : Gap) :
    Passes line column (readSingle t line column acc gap) := by
  fun_induction readSingle t line column acc gap with
  | case1 => exact .error
  | case2 _ _ _ _ _ _ _ ih => exact ih.later
  | case3 _ _ _ _ _ _ _ _ ih => exact ih.below
  | case4 => exact .error
  | case5 _ _ _ _ _ _ _ _ _ ih => exact ih.later
  | case6 => exact .ok
  | case7 _ _ _ _ _ _ _ _ _ _ _ ih => exact ih.later

theorem passes_readDouble (t : Text) (line column : Nat) (acc : Text) (gap : Gap)
    (escape : Escape) : Passes line column (readDouble t line column acc gap escape) := by
  fun_induction readDouble t line column acc gap escape with
  | case1 => exact .error
  | case2 _ _ _ _ _ _ _ ih => exact ih.later
  | case3 _ _ _ _ _ _ _ _ ih => exact ih.below
  | case4 => exact .error
  | case5 => exact .ok
  | case6 _ _ _ _ _ _ _ _ _ _ ih => exact ih.later
  | case7 _ _ _ _ _ _ _ _ _ _ _ _ ih => exact ih.later
  | case8 _ _ _ _ _ _ _ ih => exact ih.below
  | case9 _ _ _ _ _ _ _ _ _ ih => exact ih.later
  | case10 _ _ _ _ _ _ _ _ _ _ ih => exact ih.later
  | case11 => exact .error
  | case12 => exact .error
  | case13 _ _ _ _ _ _ _ _ _ _ _ _ _ _ ih => exact ih.later
  | case14 => exact .error
  | case15 _ _ _ _ _ _ _ _ _ _ _ _ ih => exact ih.later

theorem passes_read (single : Bool) (c : Cursor) : Passes c.line c.column (read single c) := by
  unfold read
  dsimp only
  split
  · have hread := passes_readSingle (c.skip 1).rest c.line (c.column + 1) [] .empty
    exact hread.later
  · have hread := passes_readDouble (c.skip 1).rest c.line (c.column + 1) [] .empty .none
    exact hread.later

theorem length_acc (gap : Gap) (acc : Text) :
    acc.length ≤ (gap.folded.reverse ++ acc).length := by simp

theorem length_readSingle {t acc text : Text} {line column : Nat} {gap : Gap} {d : Cursor}
    (h : readSingle t line column acc gap = .ok (text, d)) : acc.length ≤ text.length := by
  fun_induction readSingle t line column acc gap with
  | case1 => cases h
  | case2 _ _ _ _ _ _ _ ih => exact ih h
  | case3 _ _ _ _ _ _ _ _ ih => exact ih h
  | case4 => cases h
  | case5 _ _ acc gap _ _ _ _ _ ih =>
    exact Nat.le_trans (length_acc gap acc) (Nat.le_of_succ_le (ih h))
  | case6 _ _ _ acc gap =>
    cases h
    rw [List.length_reverse]
    exact length_acc gap acc
  | case7 _ _ _ _ acc gap _ _ _ _ _ ih =>
    exact Nat.le_trans (length_acc gap acc) (Nat.le_of_succ_le (ih h))

theorem ne_quote_of_read {value r : Text} {line column : Nat} {d : Cursor}
    (hbreaks : ∀ c ∈ value, isBreak c = false)
    (h : read true ⟨Style.singleQuoted value ++ r, line, column⟩ = .ok (value, d)) :
    r.head? ≠ some '\'' := by
  intro hhead
  cases r with
  | nil => cases hhead
  | cons c r =>
    obtain rfl := Option.some.inj hhead
    obtain ⟨k, acc, cs, hk, htext, hread⟩ :=
      readSingle_doubled hbreaks line (column + 1) [] [] (Nat.succ_pos column)
    have hsingle : readSingle (Text.replaceChar '\'' ['\'', '\''] value ++ '\'' :: '\'' :: r) line
        (column + 1) [] (.blanks []) = .ok (value, d) := by
      rw [← h, Style.singleQuoted, List.append_assoc]
      rfl
    rw [hread, readSingle_quotes acc cs hk] at hsingle
    have hlength := length_readSingle hsingle
    have hvalue := congrArg List.length htext
    simp only [List.length_cons, List.length_append, List.length_reverse, List.length_nil]
      at hlength hvalue
    omega

theorem rest_of_read {style : Style} {token value r : Text} {c d : Cursor}
    (h : style.Spells token value) (hstyle : style ≠ .plain)
    (hbreaks : ∀ c ∈ token, isBreak c = false) (hrest : c.rest = token ++ r)
    (hread : read (style = .single) c = .ok (value, d)) :
    d.rest = r ∧ c.column < d.column ∧ (style = .single → r.head? ≠ some '\'') := by
  obtain ⟨rest, line, column⟩ := c
  obtain rfl : rest = token ++ r := hrest
  have hnext (hsingle : style = .single) : r.head? ≠ some '\'' := by
    subst hsingle
    cases h with
    | single => exact ne_quote_of_read (isBreak_of_singleQuoted hbreaks) hread
  obtain ⟨k, hspelled⟩ := read_spelled h hstyle hbreaks hnext line column
  have hpasses := passes_read (style = .single) ⟨token ++ r, line, column⟩ value d hread
  obtain rfl : d = ⟨r, line, k⟩ := (Prod.mk.inj (Except.ok.inj (hread.symm.trans hspelled))).2
  refine ⟨rfl, ?_, hnext⟩
  rcases hpasses with hline | ⟨-, hcolumn⟩
  · exact absurd hline (Nat.lt_irrefl line)
  · exact hcolumn

end QuotedScalar

namespace PlainScalar

variable {indent line column : Nat} {r acc cs : Text} {p : PlainScalar}

/-- Where nothing is added to a word only a comment follows on the line, or the scalar is left at a
colon that white space follows. -/
theorem readFrom_stops {u : Text} (hbreaks : ∀ c ∈ u, isBreak c = false) (hindent : indent ≤ column)
    (hcolumn : 0 < column) (h : readFrom false indent (u ++ r) line column acc (.blanks cs) = .ok p)
    (htext : p.text = acc.reverse) :
    (Scalar.isNoise u = true ∧ (cs = [] → u.head? ≠ some '#')) ∨
      ∃ t k, atSpace t = true ∧ 0 < k ∧ p = ⟨acc.reverse, ⟨':' :: t, line, k⟩, false⟩ := by
  induction u generalizing column cs with
  | nil => exact .inl ⟨rfl, by simp⟩
  | cons c u ih =>
    have hbreak := hbreaks c List.mem_cons_self
    have hzero : column ≠ 0 := Nat.pos_iff_ne_zero.mp hcolumn
    rw [List.cons_append] at h
    by_cases hblank : isBlank c = true
    · rw [readFrom_blank hblank] at h
      refine (ih (fun d hd => hbreaks d (List.mem_cons_of_mem _ hd)) (by omega)
        (Nat.succ_pos column) h).imp_left fun hrest => ⟨?_, fun _ hsharp => ?_⟩
      · rw [Scalar.isNoise, List.dropWhile_cons_of_pos (show Text.isGap c = true from hblank)]
        exact hrest.1
      · obtain rfl : c = '#' := Option.some.inj hsharp
        cases hblank
    rw [readFrom_letter hblank hbreak] at h
    split at h
    · next hstop =>
      have hsharp : column < indent ∨ c = '#' := by
        simpa [stopsAfterGap, hzero] using hstop.2
      obtain rfl : c = '#' := hsharp.resolve_left (Nat.not_lt.mpr hindent)
      exact .inl ⟨rfl, fun hnil => absurd hnil hstop.1⟩
    split at h
    · cases h
    split at h
    · next hend =>
      obtain ⟨rfl, hspace⟩ : c = ':' ∧ atSpace (u ++ r) = true := by simpa [atEnd] using hend
      cases h
      exact .inr ⟨_, column, hspace, hcolumn, rfl⟩
    · exact absurd htext (text_ne h)

end PlainScalar

namespace Layout
namespace AwaitsScalar

variable {s : Layout} {gap token after below value : Text} {style : Style} {n : Nat}
  {ts later : List Token} {u : Token}

theorem isNoise_of_run (h : s.AwaitsScalar) (hrest : s.cursor.rest = after ++ below)
    (hafter : ∀ c ∈ after, isBreak c = false) (hrun : s.run n = .ok ts)
    (hts : ts = s.emitted.reverse ++ u :: later) (hu : u = .key ∨ u = .blockEnd) :
    Scalar.isNoise after = true := by
  unfold Scalar.isNoise
  split
  · rfl
  next c t hcons =>
  refine Decidable.byContradiction fun hsharp => ?_
  have hsplit : after = after.takeWhile Text.isGap ++ c :: t := by
    rw [← hcons, List.takeWhile_append_dropWhile]
  have hgap (d : Char) (hd : d ∈ after.takeWhile Text.isGap) : Text.isGap d = true :=
    List.all_eq_true.mp List.all_takeWhile d hd
  rw [hsplit, List.append_assoc, List.cons_append] at hrest
  obtain ⟨v, hkey, hend, hv⟩ := h.exists_token hgap hrest (Text.head_dropWhile hcons)
    (hafter c (by rw [hsplit]; simp)) (by simpa using hsharp) hrun
  rw [List.reverse_cons, hts, List.prefix_append_right_inj] at hv
  obtain ⟨rfl, -⟩ := List.cons_prefix_cons.mp hv
  exact hu.elim hkey hend

theorem eq_of_over {r : Layout} {v : Token} (hover : Over (v :: s.emitted) r)
    (hrun : r.run n = .ok ts) (hts : ts = s.emitted.reverse ++ u :: later) : v = u := by
  have hv := hover.of_run hrun
  rw [List.reverse_cons, hts, List.prefix_append_right_inj] at hv
  exact (List.cons_prefix_cons.mp hv).1

theorem rest_of_plain (h : s.AwaitsScalar) (hgap : ∀ c ∈ gap, Text.isGap c = true)
    (hrest : s.cursor.rest = gap ++ (token ++ (after ++ below)))
    (hspells : Style.plain.Spells token value) (htoken : ∀ c ∈ token, isBreak c = false)
    (hafter : ∀ c ∈ after, isBreak c = false) (hrun : s.run n = .ok ts)
    (hts : ts = s.emitted.reverse ++ .scalar value .plain :: later) :
    Scalar.isNoise after = true ∧ Style.plain.MayPrecede after ∧ Scalar.IsCommentFree token := by
  cases hspells with
  | @plain c t hbegins hends =>
    have hc : Text.isGap c = false ∧ c ≠ '#' := by
      simp only [Scalar.beginsNoValue, Bool.or_eq_false_iff, decide_eq_false_iff_not, List.mem_cons,
        not_or] at hbegins
      exact ⟨hbegins.2, hbegins.1.1⟩
    obtain ⟨q, r, hq, hemitted, hcursor, hr, -, k, hrun⟩ := h.exists_step
      (t := t ++ (after ++ below)) hgap hrest hc.1 (htoken c List.mem_cons_self) hc.2 hrun
    rw [← hemitted] at hts
    rcases hq.token_cases (t := t ++ (after ++ below)) hbegins with
      ⟨hstart, hdash⟩ | ⟨e, he⟩ | ⟨v, r', hv, hr', hover⟩
    · rw [token_of_startsPlain (Nat.pos_iff_ne_zero.mp hq.column) hq.outer hstart hdash] at hr
      obtain ⟨p, hp, rfl⟩ := hq.plainScalar_eq_ok hr
      have hsame := eq_of_over (Puts.over_emit hq _ p.rest p.brokenOff) hrun hts
      have htext : p.text = c :: t := (Token.scalar.inj hsame).1
      have hindent : q.columns.head?.elim 0 (· + 1) ≤ q.cursor.column := by
        cases hcolumns : q.columns.head? with
        | none => exact Nat.zero_le _
        | some d => exact hq.inside d hcolumns
      rw [PlainScalar.read, hcursor] at hp
      obtain ⟨hread, hfree⟩ := PlainScalar.readFrom_token (u := c :: t) (t := after ++ below)
        q.cursor.column [] [] htoken hends (by simp) (by simp) hp (by simpa using htext)
      rcases PlainScalar.readFrom_stops hafter (Nat.le_add_right_of_le hindent)
        (Nat.lt_add_right _ hq.column) hread (by simpa using htext) with
        ⟨hnoise, hsharp⟩ | ⟨t', column, hspace, hcolumn, rfl⟩
      · exact ⟨hnoise, hsharp rfl, hfree⟩
      · cases k with
        | zero => cases hrun
        | succ k =>
          obtain ⟨o, ho, -⟩ := bind_eq_ok hrun
          exact absurd ho (ne_of_eq_of_ne
            (next_eq_error_of_colon hq.candidate hq.outer rfl hcolumn hspace rfl) (by simp))
    · cases he.symm.trans hr
    · obtain rfl := Except.ok.inj (hr'.symm.trans hr)
      obtain rfl := eq_of_over hover hrun hts
      cases hv

theorem rest_of_quoted (h : s.AwaitsScalar) (hgap : ∀ c ∈ gap, Text.isGap c = true)
    (hrest : s.cursor.rest = gap ++ (token ++ (after ++ below)))
    (hspells : style.Spells token value) (hstyle : style ≠ .plain)
    (htoken : ∀ c ∈ token, isBreak c = false) (hafter : ∀ c ∈ after, isBreak c = false)
    (hrun : s.run n = .ok ts)
    (hts : ts = s.emitted.reverse ++ .scalar value (scalarStyle style) :: u :: later)
    (hu : u = .key ∨ u = .blockEnd) : Scalar.isNoise after = true ∧ style.MayPrecede after := by
  obtain ⟨t, htext⟩ : ∃ t, token = (if style = .single then '\'' else '"') :: t := by
    cases hspells with
    | plain => exact absurd rfl hstyle
    | single => exact ⟨_, rfl⟩
    | double => exact ⟨_, rfl⟩
  have hmark : isBlank (if style = .single then '\'' else '"') = false ∧
      isBreak (if style = .single then '\'' else '"') = false ∧
      (if style = .single then '\'' else '"') ≠ '#' := by
    split <;> decide
  obtain ⟨q, r, hq, hemitted, hcursor, hr, -, k, hrun⟩ := h.exists_step
    (t := t ++ (after ++ below)) hgap (by rw [hrest, htext]; rfl) hmark.1 hmark.2.1 hmark.2.2 hrun
  rw [← hemitted] at hts
  have hquoted := (token_quote (s := q) (t := t ++ (after ++ below)) (style = .single)).symm
  simp only [decide_eq_true_eq] at hquoted
  obtain ⟨text, d, hread, rfl⟩ := hq.quotedScalar_eq_ok (hquoted.trans hr)
  have hsame := eq_of_over (Puts.over_emit hq _ d false) hrun hts
  rw [hsame] at hrun
  obtain rfl : text = value := (Token.scalar.inj hsame).1
  obtain ⟨hd, hcolumn, hnext⟩ := QuotedScalar.rest_of_read hspells hstyle htoken
    (hcursor.trans (by rw [htext]; rfl)) hread
  have hlater : (((q.allowKey false).emit (.scalar text (scalarStyle style))).withCursor
      d).AwaitsScalar := ⟨hq.candidate, hq.outer, rfl,
    fun c hc => Nat.lt_trans (hq.inside c hc) hcolumn, Nat.zero_lt_of_lt hcolumn⟩
  have htokens : ts = (.scalar text (scalarStyle style) :: q.emitted).reverse ++ u :: later := by
    rw [hts, List.reverse_cons, List.append_assoc]
    rfl
  refine ⟨hlater.isNoise_of_run hd hafter hrun htokens hu, ?_⟩
  cases style with
  | plain => exact absurd rfl hstyle
  | single =>
    intro hhead
    exact hnext rfl (by rw [List.head?_append, hhead]; rfl)
  | double => trivial

/-- A scalar of one line, before the next key or the end of its mapping. -/
theorem rest_of_spells (h : s.AwaitsScalar) (hgap : ∀ c ∈ gap, Text.isGap c = true)
    (hrest : s.cursor.rest = gap ++ (token ++ (after ++ below)))
    (hspells : style.Spells token value) (htoken : ∀ c ∈ token, isBreak c = false)
    (hafter : ∀ c ∈ after, isBreak c = false) (hrun : s.run n = .ok ts)
    (hts : ts = s.emitted.reverse ++ .scalar value (scalarStyle style) :: u :: later)
    (hu : u = .key ∨ u = .blockEnd) :
    Scalar.isNoise after = true ∧ style.MayPrecede after ∧
      (style = .plain → Scalar.IsCommentFree token) := by
  by_cases hstyle : style = .plain
  · subst hstyle
    obtain ⟨hnoise, hprecede, hfree⟩ := h.rest_of_plain hgap hrest hspells htoken hafter hrun hts
    exact ⟨hnoise, hprecede, fun _ => hfree⟩
  · obtain ⟨hnoise, hprecede⟩ :=
      h.rest_of_quoted hgap hrest hspells hstyle htoken hafter hrun hts hu
    exact ⟨hnoise, hprecede, fun hplain => absurd hplain hstyle⟩

end AwaitsScalar
end Layout
end VersionDrift.Yaml
