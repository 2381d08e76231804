import VersionDrift.Proofs.Yaml.Steady

/-!
# Reading on from another column

Once nothing more is read on a line, its columns no longer matter: the next line
begins at column zero whatever stood before.
-/

set_option autoImplicit false

namespace VersionDrift.Yaml

def atLineEnd (t : Text) : Bool :=
  match t.dropWhile isBlank with
  | [] => true
  | c :: _ => c = '#' || isBreak c

theorem atLineEnd_cons_of_isBlank {c : Char} (hc : isBlank c = true) (t : Text) :
    atLineEnd (c :: t) = atLineEnd t := by
  rw [atLineEnd, atLineEnd, List.dropWhile_cons, if_pos hc]

theorem atLineEnd_append {g : Text} (hg : ∀ c ∈ g, isBlank c = true) (t : Text) :
    atLineEnd (g ++ t) = atLineEnd t := by
  induction g with
  | nil => rfl
  | cons c g ih =>
    rw [List.cons_append, atLineEnd_cons_of_isBlank (hg c List.mem_cons_self),
      ih fun d hd => hg d (List.mem_cons_of_mem _ hd)]

theorem atLineEnd_cons {c : Char} {t : Text} (h : atLineEnd (c :: t) = true) :
    (isBlank c = true ∧ atLineEnd t = true) ∨ c = '#' ∨ isBreak c = true := by
  by_cases hc : isBlank c = true
  · rw [atLineEnd_cons_of_isBlank hc] at h
    exact .inl ⟨hc, h⟩
  · rw [atLineEnd, List.dropWhile_cons, if_neg hc] at h
    have hend : (decide (c = '#') || isBreak c) = true := h
    simp only [Bool.or_eq_true, decide_eq_true_eq] at hend
    exact .inr hend

structure Cursor.Shifted (c c' : Cursor) : Prop where
  rest : c'.rest = c.rest
  line : c'.line = c.line
  column : c'.column = c.column ∨ atLineEnd c.rest = true

/-- From the end of a line the next token is found at the same place, if there is one. -/
theorem skipSpace_shifted (inFlow : Bool) (t : Text) (line column column' : Nat)
    (keyAllowed inComment : Bool) (h : inComment = true ∨ atLineEnd t = true) :
    skipSpace inFlow t line column' keyAllowed inComment =
        skipSpace inFlow t line column keyAllowed inComment ∨
      (skipSpace inFlow t line column' keyAllowed inComment).1.rest =
          (skipSpace inFlow t line column keyAllowed inComment).1.rest ∧
        ∀ c ∈ (skipSpace inFlow t line column keyAllowed inComment).1.rest.head?, c = '\t' := by
  induction t generalizing column column' inComment with
  | nil => exact .inr ⟨rfl, by simp [skipSpace]⟩
  | cons c t ih =>
    rw [skipSpace, skipSpace]
    by_cases hbreak : isBreak c = true
    · rw [if_pos hbreak, if_pos hbreak]
      exact .inl rfl
    rw [if_neg hbreak, if_neg hbreak]
    by_cases hcomment : inComment = true
    · rw [if_pos hcomment, if_pos hcomment]
      exact ih _ _ true (.inl rfl)
    have hline := atLineEnd_cons (h.resolve_left hcomment)
    have hmark : c ≠ byteOrderMark := by
      rcases hline with ⟨hblank, -⟩ | rfl | hbreak'
      · rintro rfl
        cases hblank
      · decide
      · exact absurd hbreak' hbreak
    rw [if_neg hcomment, if_neg hcomment]
    simp only [hmark, decide_false, Bool.false_and, Bool.false_eq_true, if_false]
    by_cases hskip : (decide (c = ' ') || decide (c = '\t') && (inFlow || !keyAllowed)) = true
    · rw [if_pos hskip, if_pos hskip]
      have hblank : isBlank c = true := by
        simp only [Bool.or_eq_true, Bool.and_eq_true, decide_eq_true_eq] at hskip
        simp only [isBlank, Bool.or_eq_true, decide_eq_true_eq]
        exact hskip.imp id And.left
      have hrest := h.resolve_left hcomment
      rw [atLineEnd_cons_of_isBlank hblank] at hrest
      exact ih _ _ false (.inr hrest)
    rw [if_neg hskip, if_neg hskip]
    by_cases hsharp : c = '#'
    · rw [if_pos hsharp, if_pos hsharp]
      exact ih _ _ true (.inl rfl)
    · rw [if_neg hsharp, if_neg hsharp]
      refine .inr ⟨rfl, ?_⟩
      intro d hd
      cases hd
      rcases hline with ⟨hblank, -⟩ | hsharp' | hbreak'
      · simp only [isBlank, Bool.or_eq_true, decide_eq_true_eq] at hblank
        simp only [Bool.or_eq_true, decide_eq_true_eq, not_or] at hskip
        exact hblank.resolve_left hskip.1
      · exact absurd hsharp' hsharp
      · exact absurd hbreak' hbreak

structure Layout.Shifted (old new : Text) (n : Nat) (s s' : Layout) : Prop where
  cursor : s.cursor.Shifted s'.cursor
  edited : Layout.Edited old new n s (s'.withCursor s.cursor)

namespace Layout

theorem token_tab (t : Text) (s : Layout) : s.token '\t' t = .error .unexpectedCharacter := by
  simp [token, startsPlain, isBlank]

theorem next_eq_none {s : Layout} :
    s.next = .ok none ↔ s.skipped.cursor.rest = [] ∧ ∃ q, s.skipped.dropStale = .ok q := by
  unfold next tokenHere
  cases hq : s.skipped.dropStale with
  | error e => simp
  | ok q =>
    have hclosed : (q.closeTo q.cursor.column).cursor.rest = s.skipped.cursor.rest := by
      rw [closeTo_cursor, Steady.dropStale.cursor_eq hq]
    simp only [ok_bind, hclosed]
    cases s.skipped.cursor.rest with
    | nil => simp
    | cons c t =>
      dsimp only
      cases (q.closeTo q.cursor.column).token c t <;> simp

theorem next_of_tab {s : Layout} {r : Option Layout}
    (h : ∀ c ∈ s.skipped.cursor.rest.head?, c = '\t') (hr : s.next = .ok r) : r = none := by
  cases r with
  | none => rfl
  | some r =>
    obtain ⟨q, c, t, -, hrest, htoken⟩ := tokenHere_eq_some.mp hr
    rw [hrest] at h
    rw [h c rfl, token_tab] at htoken
    cases htoken

theorem finish_withCursor (s : Layout) (c : Cursor) : (s.withCursor c).finish = s.finish := by
  unfold finish
  rw [closeAll_withCursor]
  obtain ⟨cursor, columns, candidate, outer, keyAllowed, emitted⟩ := s.closeAll
  cases candidate with
  | none => rfl
  | some k =>
    cases hrequired : k.required <;>
      simp only [dropCandidate, withCursor, hrequired] <;> rfl

/-- No colon has to follow any more: there are no keys around flow collections, and the possible
key need not be one. -/
structure Settled (s : Layout) : Prop where
  outer : s.outer = []
  candidate : ∀ k ∈ s.candidate, k.required = false

theorem Settled.dropStale {s : Layout} (h : s.Settled) : ∃ q, s.dropStale = .ok q := by
  have hcandidate (line column : Nat) : ∃ k, dropStaleKey line column s.candidate = .ok k := by
    cases hk : s.candidate with
    | none => exact ⟨none, rfl⟩
    | some k =>
      rw [dropStaleKey, h.candidate k hk]
      split
      · exact ⟨none, rfl⟩
      · exact ⟨some k, rfl⟩
  obtain ⟨k, hk⟩ := hcandidate s.cursor.line s.cursor.column
  unfold Layout.dropStale
  dsimp only
  rw [h.outer, hk]
  exact ⟨_, rfl⟩

theorem settled_of_finish {s : Layout} {ts : List Token} (h : s.finish = .ok ts) :
    s.Settled ∨ ts = s.emitted.reverse := by
  obtain ⟨q, hq, h⟩ := bind_eq_ok h
  cases h
  cases houter : s.outer with
  | nil =>
    refine .inl ⟨houter, fun k hk => ?_⟩
    have hclosed : s.closeAll.candidate = some k := by
      unfold closeAll
      split
      · exact hk
      · exact hk
    rw [dropCandidate, hclosed] at hq
    cases hrequired : k.required with
    | false => rfl
    | true => simp [hrequired] at hq
  | cons k ks =>
    have hclosed : s.closeAll = s := by
      rw [closeAll, if_pos (by simp [houter])]
    rw [hclosed, dropCandidate] at hq
    refine .inr ?_
    split at hq
    · split at hq
      · cases hq
      · cases hq
        rfl
    · cases hq
      rfl

namespace Shifted

variable {old new : Text} {n : Nat} {s s' : Layout}

theorem next (h : Shifted old new n s s') {o : Option Layout} (ho : s.next = .ok o)
    (hend : o = none → s.Settled) :
    ∃ o', s'.next = .ok o' ∧ Option.Rel (Edited old new n) o o' := by
  obtain ⟨⟨hrest, hline, hcolumn⟩, hedited⟩ := h
  have hflow : s'.inFlow = s.inFlow := hedited.inFlow
  have hallowed : s'.keyAllowed = s.keyAllowed := hedited.keyAllowed
  have hskip (hsame : skipSpace s.inFlow s.cursor.rest s.cursor.line s'.cursor.column
      s.keyAllowed false = skipSpace s.inFlow s.cursor.rest s.cursor.line s.cursor.column
      s.keyAllowed false) : ∃ o', s'.next = .ok o' ∧ Option.Rel (Edited old new n) o o' := by
    have hskipped : s'.skipped = (s'.withCursor s.cursor).skipped := by
      have hsame' : skipSpace s'.inFlow s'.cursor.rest s'.cursor.line s'.cursor.column
          s'.keyAllowed false = skipSpace s'.inFlow s.cursor.rest s.cursor.line s.cursor.column
          s'.keyAllowed false := by
        rw [hflow, hallowed, hrest, hline, hsame]
      exact congrArg (fun p => ({ s' with cursor := p.1, keyAllowed := p.2 } : Layout)) hsame'
    have hnext := hedited.next o ho
    unfold Layout.next at hnext ⊢
    rwa [hskipped]
  rcases hcolumn with hcolumn | hend'
  · exact hskip (by rw [hcolumn])
  rcases skipSpace_shifted s.inFlow s.cursor.rest s.cursor.line s.cursor.column s'.cursor.column
    s.keyAllowed false (.inr hend') with hsame | ⟨hstop, htab⟩
  · exact hskip hsame
  · obtain rfl := next_of_tab htab ho
    have hstop' : s'.skipped.cursor.rest = s.skipped.cursor.rest := by
      unfold skipped
      rw [hrest, hline, hflow, hallowed]
      exact hstop
    have hsettled : s'.skipped.Settled :=
      ⟨hedited.outer.trans (hend rfl).outer,
        fun k hk => (hend rfl).candidate k (hedited.candidate.symm.trans hk)⟩
    refine ⟨none, next_eq_none.mpr ⟨?_, hsettled.dropStale⟩, .none⟩
    rw [hstop']
    exact (next_eq_none.mp ho).1

/-- The other reading gives all its tokens too, if the text goes on after the last one or ends
outside of flow collections. -/
theorem run (h : Shifted old new n s s') {fuel fuel' : Nat} (hfuel : fuel ≤ fuel')
    {ts : List Token} (hts : s.run fuel = .ok ts) (hmore : ts ≠ s.emitted.reverse) :
    ∃ ts', s'.run fuel' = .ok ts' ∧ Summed (Token.Edited old new) n ts ts' ∧
      Token.Bare ts ts' := by
  cases fuel with
  | zero => cases hts
  | succ fuel =>
    obtain ⟨k, rfl⟩ : ∃ k, fuel' = k + 1 := ⟨fuel' - 1, by omega⟩
    obtain ⟨o, ho, hts⟩ := bind_eq_ok hts
    have hend : o = none → s.Settled := by
      rintro rfl
      exact (settled_of_finish hts).resolve_right hmore
    obtain ⟨o', ho', hrel⟩ := h.next ho hend
    unfold Layout.run
    rw [ho']
    cases hrel with
    | none =>
      have hfinish := h.edited.finish
      rw [finish_withCursor] at hfinish
      exact hfinish ts hts
    | some hr => exact hr.run (by omega) ts hts

end Shifted
end Layout
end VersionDrift.Yaml
