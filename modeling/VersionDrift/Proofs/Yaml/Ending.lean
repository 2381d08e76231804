import VersionDrift.Proofs.Yaml.AfterColon

/-!
# The last scalar of a document

After the colon of a key no other key may begin on the line. When a scalar stands there,
and nothing but white space and a comment after it, it is the last token with a text; the
block collections that are open end with it.
-/

set_option autoImplicit false

namespace VersionDrift.Yaml

theorem skipSpace_comment {t : Text} (ht : ∀ c ∈ t, isBreak c = false) (inFlow : Bool)
    (line column : Nat) (keyAllowed : Bool) :
    (skipSpace inFlow (t ++ ['\n']) line column keyAllowed true).1.rest = [] := by
  induction t generalizing column with
  | nil => rfl
  | cons c t ih =>
    have hc := ht c List.mem_cons_self
    rw [List.cons_append, skipSpace, if_neg (by simp [hc]), if_pos rfl]
    exact ih (fun d hd => ht d (List.mem_cons_of_mem _ hd)) (column + 1)

theorem skipSpace_last {t : Text} (ht : ∀ c ∈ t, isBreak c = false)
    (hend : atLineEnd (t ++ ['\n']) = true) (inFlow : Bool) (line column : Nat) :
    (skipSpace inFlow (t ++ ['\n']) line column false false).1.rest = [] := by
  induction t generalizing column with
  | nil => rfl
  | cons c t ih =>
    have hbreak := ht c List.mem_cons_self
    have hrest : ∀ d ∈ t, isBreak d = false := fun d hd => ht d (List.mem_cons_of_mem _ hd)
    rcases atLineEnd_cons hend with ⟨hblank, hend⟩ | rfl | hbreak'
    · have hgap : ∀ d ∈ [c], Text.isGap d = true := by simpa [Text.isGap, isBlank] using hblank
      rw [List.cons_append, ← List.singleton_append, skipSpace_blanks hgap]
      exact ih hrest hend _
    · exact skipSpace_comment hrest inFlow line (column + 1) false
    · rw [hbreak] at hbreak'
      cases hbreak'

namespace Layout

def lastTokens (s : Layout) (text : Text) (style : ScalarStyle) : List Token :=
  s.emitted.reverse ++ .scalar text style :: List.replicate s.columns.length .blockEnd

theorem lastTokens_eq (s : Layout) (text : Text) (style : ScalarStyle) :
    s.lastTokens text style = (s.emit (.scalar text style)).emitted.reverse ++
      List.replicate s.columns.length .blockEnd := by
  simp [lastTokens, emit]

theorem run_of_rest_eq_nil {s : Layout} (hcandidate : s.candidate = none) (houter : s.outer = [])
    (hrest : s.skipped.cursor.rest = []) :
    s.run 1 = .ok (s.emitted.reverse ++ List.replicate s.columns.length .blockEnd) := by
  have hsettled : s.skipped.Settled :=
    ⟨houter, fun k hk => by rw [show s.skipped.candidate = none from hcandidate] at hk; cases hk⟩
  have hnone := next_eq_none.mpr ⟨hrest, hsettled.dropStale⟩
  have hclosed : s.closeAll = { s with
      columns := [], emitted := List.replicate s.columns.length .blockEnd ++ s.emitted } := by
    rw [closeAll, if_neg (by simp [houter])]
  unfold run
  rw [hnone]
  change s.finish = _
  rw [finish, hclosed, dropCandidate, hcandidate]
  simp

end Layout

namespace PlainScalar

/-- The scalar is left at a colon that white space follows, on the line. -/
def StopsAtColon (line : Nat) (f : Except Error PlainScalar) : Prop :=
  ∃ text t column, atSpace t = true ∧ 0 < column ∧
    f = .ok ⟨text, ⟨':' :: t, line, column⟩, false⟩

variable {u r : Text} {indent line : Nat}

theorem readFrom_line (column : Nat) (acc cs : Text) (hbreaks : ∀ c ∈ u, isBreak c = false)
    (hcs : ∀ c ∈ cs, Text.isGap c = true) (hfree : Scalar.IsCommentFree (cs ++ u))
    (hlast : ∀ c ∈ (cs ++ u).getLast?, Text.isGap c = false) (hindent : indent ≤ column)
    (hcolumn : 0 < column) :
    readFrom false indent (u ++ r) line column acc (.blanks cs) =
        readFrom false indent r line (column + u.length) ((cs ++ u).reverse ++ acc) .empty ∨
      ':' ∈ u ∧
        StopsAtColon line (readFrom false indent (u ++ r) line column acc (.blanks cs)) := by
  induction u generalizing column acc cs with
  | nil =>
    obtain rfl : cs = [] := by
      rw [List.append_nil] at hlast
      refine List.getLast?_eq_none_iff.mp (Option.eq_none_iff_forall_not_mem.mpr fun c hc => ?_)
      have hgap := hcs c (List.mem_of_getLast? hc)
      rw [hlast c hc] at hgap
      cases hgap
    exact .inl rfl
  | cons c u ih =>
    have hbreak := hbreaks c List.mem_cons_self
    have hbreaks' : ∀ d ∈ u, isBreak d = false := fun d hd => hbreaks d (List.mem_cons_of_mem _ hd)
    have hlength : column + (c :: u).length = column + 1 + u.length := by
      rw [List.length_cons]
      omega
    have hsplit : cs ++ c :: u = cs ++ [c] ++ u := by simp
    rw [hlength, List.cons_append]
    by_cases hblank : isBlank c = true
    · have hstep := ih (column + 1) acc (cs ++ [c]) hbreaks'
        (List.forall_mem_append.mpr ⟨hcs, List.forall_mem_singleton.mpr hblank⟩) (hsplit ▸ hfree)
        (hsplit ▸ hlast) (by omega) (by omega)
      rw [readFrom_blank hblank, hsplit]
      exact hstep.imp_right fun h => ⟨List.mem_cons_of_mem _ h.1, h.2⟩
    have hstop : ¬(cs ≠ [] ∧ stopsAfterGap false indent column (c :: (u ++ r)) = true) := by
      rintro ⟨hne, hstop⟩
      have hsharp : column < indent ∨ c = '#' := by
        simpa [stopsAfterGap, Nat.pos_iff_ne_zero.mp hcolumn] using hstop
      exact hfree.ne_sharp hcs hne (hsharp.resolve_left (Nat.not_lt.mpr hindent))
    rw [readFrom_letter hblank hbreak, if_neg hstop, if_neg (by simp)]
    split
    · next hend =>
      obtain ⟨rfl, hspace⟩ : c = ':' ∧ atSpace (u ++ r) = true := by simpa [atEnd] using hend
      exact .inr ⟨List.mem_cons_self, _, _, _, hspace, hcolumn, rfl⟩
    · have hlast' : ∀ d ∈ ([] ++ u).getLast?, Text.isGap d = false := by
        intro d hd
        have hd : u.getLast? = some d := hd
        exact hlast d (by simp [List.getLast?_cons, hd])
      have hstep := ih (column + 1) (c :: (cs.reverse ++ acc)) [] hbreaks' (by simp)
        (hsplit ▸ hfree).of_append.2 hlast' (by omega) (by omega)
      have htext : (cs ++ c :: u).reverse ++ acc =
          ([] ++ u).reverse ++ (c :: (cs.reverse ++ acc)) := by simp
      rw [htext]
      exact hstep.imp_right fun h => ⟨List.mem_cons_of_mem _ h.1, h.2⟩

theorem readFrom_last (column : Nat) (acc cs : Text) (hr : ∀ c ∈ r, isBreak c = false)
    (hend : atLineEnd (r ++ ['\n']) = true) (hsharp : cs = [] → r.head? ≠ some '#') :
    ∃ p, readFrom false indent (r ++ ['\n']) line column acc (.blanks cs) = .ok p ∧
      p.text = acc.reverse ∧ (p.rest.rest = [] ∨ p.brokenOff = false ∧ ∃ t,
        p.rest.rest = '#' :: t ++ ['\n'] ∧ ∀ c ∈ t, isBreak c = false) := by
  induction r generalizing column cs with
  | nil => exact ⟨_, rfl, rfl, .inl rfl⟩
  | cons c r ih =>
    have hbreak := hr c List.mem_cons_self
    have hrest : ∀ d ∈ r, isBreak d = false := fun d hd => hr d (List.mem_cons_of_mem _ hd)
    rcases atLineEnd_cons hend with ⟨hblank, hend⟩ | rfl | hbreak'
    · obtain ⟨p, hp, htext⟩ := ih (column + 1) (cs ++ [c]) hrest hend (by simp)
      refine ⟨p, ?_, htext⟩
      rw [List.cons_append, readFrom_blank hblank]
      exact hp
    · refine ⟨⟨acc.reverse, ⟨'#' :: r ++ ['\n'], line, column⟩, false⟩, ?_, rfl,
        .inr ⟨rfl, r, rfl, hrest⟩⟩
      rw [List.cons_append, readFrom_letter (by decide) hbreak]
      exact if_pos ⟨fun hnil => hsharp hnil rfl, by simp [stopsAfterGap]⟩
    · rw [hbreak] at hbreak'
      cases hbreak'

end PlainScalar

namespace Layout
namespace AwaitsScalar

variable {s r : Layout} {c : Char} {t u : Text}

variable {value token after gap : Text} {line column : Nat}

theorem run_quotedScalar (h : s.AwaitsScalar) {single : Bool} {k : Nat}
    (hread : QuotedScalar.read single s.cursor = .ok (value, ⟨after ++ ['\n'], line, k⟩))
    (hafter : ∀ c ∈ after, isBreak c = false) (hend : atLineEnd (after ++ ['\n']) = true) :
    ∃ r, s.quotedScalar single = .ok r ∧ r.run 1 =
      .ok (s.lastTokens value (if single then .singleQuoted else .doubleQuoted)) := by
  refine ⟨_, h.quotedScalar hread, ?_⟩
  rw [lastTokens_eq]
  refine run_of_rest_eq_nil h.candidate h.outer ?_
  change (skipSpace s.inFlow (after ++ ['\n']) line k s.keyAllowed false).1.rest = []
  rw [h.keyAllowed]
  exact skipSpace_last hafter hend _ line k

/-- A plain scalar is read to the end of its token, and then nothing is left; or it stops at a colon
in the token, and no step follows. -/
theorem run_plainScalar (h : s.AwaitsScalar)
    (hrest : s.cursor.rest = token ++ (after ++ ['\n'])) (htoken : ∀ c ∈ token, isBreak c = false)
    (hfree : Scalar.IsCommentFree token) (hlast : ∀ c ∈ token.getLast?, Text.isGap c = false)
    (hafter : ∀ c ∈ after, isBreak c = false) (hend : atLineEnd (after ++ ['\n']) = true)
    (hsharp : after.head? ≠ some '#') :
    (∃ r, s.plainScalar = .ok r ∧ r.run 1 = .ok (s.lastTokens token .plain)) ∨
      ':' ∈ token ∧ ∃ r, s.plainScalar = .ok r ∧ r.next = .error .misplacedValue := by
  let indent := s.columns.head?.elim 0 (· + 1)
  have hindent : indent ≤ s.cursor.column := by
    cases hcolumns : s.columns.head? with
    | none => simp [indent, hcolumns]
    | some c =>
      have hinside := h.inside c hcolumns
      simp only [indent, hcolumns, Option.elim_some]
      omega
  have hread (p : PlainScalar) (hp : PlainScalar.readFrom false indent (token ++ (after ++ ['\n']))
      s.cursor.line s.cursor.column [] (.blanks []) = .ok p) :
      PlainScalar.read false indent s.cursor = .ok p := by
    rw [PlainScalar.read, hrest]
    exact hp
  have hread' := @PlainScalar.readFrom_line token (after ++ ['\n']) indent s.cursor.line
    s.cursor.column [] [] htoken (by simp) hfree hlast hindent h.column
  rcases hread' with hline | ⟨hcolon, text, t, k, ht, hk, hstop⟩
  · obtain ⟨p, hp, htext, hp'⟩ := @PlainScalar.readFrom_last after indent s.cursor.line
      (s.cursor.column + token.length) (([] ++ token).reverse ++ []) [] hafter hend fun _ => hsharp
    refine .inl ⟨_, h.plainScalar (hread p (hline.trans hp)), ?_⟩
    have htext : p.text = token := by simpa using htext
    rw [lastTokens_eq, ← htext]
    refine run_of_rest_eq_nil h.candidate h.outer ?_
    change (skipSpace s.inFlow p.rest.rest p.rest.line p.rest.column p.brokenOff false).1.rest = []
    rcases hp' with hnil | ⟨hbroken, t, ht, hbreaks⟩
    · rw [hnil]
      rfl
    · rw [ht, hbroken]
      refine skipSpace_last (fun c hc => ?_) rfl _ _ _
      rcases List.mem_cons.mp hc with rfl | hc
      · rfl
      · exact hbreaks c hc
  · refine .inr ⟨hcolon, _, h.plainScalar (hread _ hstop), ?_⟩
    exact next_eq_error_of_colon h.candidate h.outer rfl hk ht rfl

theorem run_quoted (h : s.AwaitsScalar) (hgap : ∀ c ∈ gap, Text.isGap c = true) (single : Bool)
    (hrest : s.cursor.rest = gap ++ (if single then '\'' else '"') :: t)
    (hread : ∀ line column, ∃ k, QuotedScalar.read single
      ⟨(if single then '\'' else '"') :: t, line, column⟩ = .ok (value, ⟨after ++ ['\n'], line, k⟩))
    (hafter : ∀ c ∈ after, isBreak c = false) (hend : atLineEnd (after ++ ['\n']) = true) :
    s.run 2 = .ok (s.lastTokens value (if single then .singleQuoted else .doubleQuoted)) := by
  have hquote : isBlank (if single then '\'' else '"') = false ∧
      isBreak (if single then '\'' else '"') = false ∧ (if single then '\'' else '"') ≠ '#' := by
    cases single <;> decide
  obtain ⟨hblank, hbreak, hsharp⟩ := hquote
  obtain ⟨k, hk⟩ := hread s.cursor.line (s.cursor.column + gap.length)
  obtain ⟨r, hr, hrun⟩ := (h.next hgap hrest hblank hbreak hsharp).1.run_quotedScalar
    hk hafter hend
  rw [h.run_token hgap hrest hblank hbreak hsharp ((token_quote single).trans hr), hrun]
  rfl

theorem run_plain (h : s.AwaitsScalar) (hgap : ∀ c ∈ gap, Text.isGap c = true)
    (hrest : s.cursor.rest = gap ++ (c :: t ++ (after ++ ['\n'])))
    (hstart : startsPlain false c (t ++ (after ++ ['\n'])) = true)
    (hdash : c = '-' → atSpace (t ++ (after ++ ['\n'])) = false)
    (htoken : ∀ d ∈ c :: t, isBreak d = false) (hfree : Scalar.IsCommentFree (c :: t))
    (hlast : ∀ d ∈ (c :: t).getLast?, Text.isGap d = false)
    (hafter : ∀ d ∈ after, isBreak d = false) (hend : atLineEnd (after ++ ['\n']) = true)
    (hsharp : after.head? ≠ some '#') :
    s.run 2 = .ok (s.lastTokens (c :: t) .plain) ∨
      ':' ∈ c :: t ∧ ∀ n, ∃ e, s.run n = .error e := by
  obtain ⟨hblank, hbreak, -⟩ := atEnd_of_startsPlain hstart
  have hcomment : c ≠ '#' := by
    rintro rfl
    cases hstart
  obtain ⟨hhere, -⟩ := h.next hgap hrest hblank hbreak hcomment
  have htokens := token_of_startsPlain (s := s.withCursor ⟨c :: t ++ (after ++ ['\n']),
    s.cursor.line, s.cursor.column + gap.length⟩) (Nat.pos_iff_ne_zero.mp hhere.column)
    hhere.outer hstart hdash
  rcases hhere.run_plainScalar rfl htoken hfree hlast hafter hend
    hsharp with ⟨r, hr, hrun⟩ | ⟨hcolon, r, hr, herror⟩
  · left
    rw [h.run_token hgap hrest hblank hbreak hcomment (htokens.trans hr), hrun]
    rfl
  · refine .inr ⟨hcolon, fun n => ?_⟩
    cases n with
    | zero => exact ⟨_, rfl⟩
    | succ n =>
      rw [h.run_token hgap hrest hblank hbreak hcomment (htokens.trans hr)]
      cases n with
      | zero => exact ⟨_, rfl⟩
      | succ n =>
        rw [run, herror]
        exact ⟨_, rfl⟩

end AwaitsScalar
end Layout
end VersionDrift.Yaml
