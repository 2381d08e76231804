import VersionDrift.Proofs.Yaml.Step

/-!
# Every step takes a character

What a token leaves is a suffix of the text after its first character. So a bound on the
steps does not matter once it is greater than the length of the text.
-/

set_option autoImplicit false

namespace VersionDrift.Yaml
namespace Layout

theorem atEnd_of_startsPlain {inFlow : Bool} {c : Char} {t : Text}
    (h : startsPlain inFlow c t = true) :
    isBlank c = false ∧ isBreak c = false ∧ PlainScalar.atEnd inFlow (c :: t) = false := by
  unfold startsPlain at h
  split at h
  · next hc =>
    subst hc
    exact ⟨rfl, rfl, by simp [PlainScalar.atEnd, isFlowIndicator]⟩
  · split at h
    · next hc =>
      simp only [Bool.and_eq_true, Bool.not_eq_true'] at h
      simp only [Bool.or_eq_true, decide_eq_true_eq] at hc
      rcases hc with rfl | rfl
      · exact ⟨rfl, rfl, by simp [PlainScalar.atEnd, h]⟩
      · exact ⟨rfl, rfl, by simp [PlainScalar.atEnd, h]⟩
    · next hc =>
      simp only [Bool.or_eq_true, decide_eq_true_eq, not_or] at hc
      simp only [Bool.not_eq_true', Bool.or_eq_false_iff, decide_eq_false_iff_not] at h
      refine ⟨h.1.1, h.1.2, ?_⟩
      have hindicator : isFlowIndicator c = false := by
        have hmem := h.2
        simp only [isFlowIndicator, Bool.or_eq_false_iff, decide_eq_false_iff_not]
        refine ⟨⟨⟨⟨?_, ?_⟩, ?_⟩, ?_⟩, ?_⟩ <;>
          · rintro rfl
            exact hmem (by decide)
      simp [PlainScalar.atEnd, hc, hindicator]

end Layout

theorem Cursor.Spells.suffix {c d : Cursor} {u : Token} (h : c.Spells u d) :
    d.rest <:+ c.rest.drop 1 := by
  cases h with
  | directive read => exact Property.endsIn_directive c _ _ read
  | «alias» read => exact Property.endsIn_anchorName c _ _ read
  | anchor begins read => exact Property.endsIn_anchorName c _ _ read
  | tag begins read => exact Property.endsIn_tag _ c _ _ read
  | block read => exact BlockScalar.endsIn_read _ _ c _ _ read
  | quoted read => exact QuotedScalar.endsIn_read _ c _ _ read
  | plain rest begins read =>
    obtain ⟨hblank, hbreak, hend⟩ := Layout.atEnd_of_startsPlain begins
    rw [rest]
    exact PlainScalar.suffix_read rest hblank hbreak hend read

namespace Layout

variable {s : Layout}

theorem Steps.suffix {r : Layout} (h : s.Steps r) : r.cursor.rest <:+ s.cursor.rest.drop 1 := by
  cases h with
  | @mark q k u settles =>
    have hdrop : s.cursor.rest.drop (k + 1) = (s.cursor.rest.drop 1).drop k := by
      rw [List.drop_drop, Nat.add_comm]
    simp only [take_cursor, Cursor.skip_rest, settles.1, hdrop]
    exact List.drop_suffix k _
  | read settles spells => exact spells.suffix

theorem suffix_of_next {r : Layout} (h : s.next = .ok (some r)) :
    ∃ c t, s.skipped.cursor.rest = c :: t ∧ r.cursor.rest <:+ t := by
  obtain ⟨hrest, hsteps⟩ := steps_of_next h
  obtain ⟨c, t, hct⟩ := List.exists_cons_of_ne_nil hrest
  have hsuffix := hsteps.suffix
  rw [hct] at hsuffix
  exact ⟨c, t, hct, hsuffix⟩

theorem length_lt_of_next {r : Layout} (h : s.next = .ok (some r)) :
    r.cursor.rest.length < s.cursor.rest.length := by
  obtain ⟨c, t, hrest, hsuffix⟩ := suffix_of_next h
  have hskip : s.skipped.cursor.rest.length ≤ s.cursor.rest.length :=
    (suffix_skipSpace ..).length_le
  have hlength := hsuffix.length_le
  rw [hrest, List.length_cons] at hskip
  omega

/-- A reading that ends needs no more steps than there are characters. -/
theorem run_of_length_lt {n k : Nat} {ts : List Token} (h : s.run n = .ok ts)
    (hk : s.cursor.rest.length < k) : s.run k = .ok ts := by
  induction n generalizing s k with
  | zero => cases h
  | succ n ih =>
    obtain ⟨k, rfl⟩ : ∃ j, k = j + 1 := ⟨k - 1, by omega⟩
    obtain ⟨o, ho, h⟩ := bind_eq_ok h
    unfold run
    rw [ho]
    cases o with
    | none => exact h
    | some r =>
      have hlength := length_lt_of_next ho
      exact ih h (by omega)

theorem Reads.suffix {t : Text} (h : Reads t s) : s.cursor.rest <:+ t := by
  induction h with
  | start => exact List.suffix_rfl
  | next reads step ih =>
    obtain ⟨c, u, hrest, hsuffix⟩ := suffix_of_next step
    have hskip : c :: u <:+ _ := hrest ▸ suffix_skipSpace ..
    exact (hsuffix.trans (List.suffix_cons c u)).trans (hskip.trans ih)

theorem Reads.run {t : Text} (h : Reads t s) {n : Nat} {ts : List Token}
    (hrun : (Layout.start t).run n = .ok ts) : ∃ m, s.run m = .ok ts := by
  induction h with
  | start => exact ⟨n, hrun⟩
  | next reads step ih =>
    obtain ⟨m, hm⟩ := ih
    cases m with
    | zero => cases hm
    | succ m =>
      obtain ⟨r, hr, hm⟩ := bind_eq_ok hm
      rw [step] at hr
      cases hr
      exact ⟨m, hm⟩

theorem Reads.run_start {t : Text} (h : Reads t s) {m : Nat} {ts : List Token}
    (hrun : s.run m = .ok ts) : ∃ n, (Layout.start t).run n = .ok ts := by
  induction h generalizing m with
  | start => exact ⟨m, hrun⟩
  | next reads step ih =>
    refine ih (m := m + 1) ?_
    unfold Layout.run
    rw [step]
    exact hrun

def after? (t : Text) : Nat → Option Layout
  | 0 => some (start t)
  | n + 1 => do
    match (← after? t n).next with
    | .ok r => r
    | .error _ => none

theorem reads_of_after {t : Text} {n : Nat} (h : after? t n = some s) : Reads t s := by
  induction n generalizing s with
  | zero =>
    cases h
    exact .start
  | succ n ih =>
    obtain ⟨r, hr, h⟩ := Option.bind_eq_some_iff.mp h
    split at h
    · next o ho =>
      subst h
      exact .next (ih hr) ho
    · cases h

end Layout

theorem Token.ofText_eq_ok {t : Text} {ts : List Token} : Token.ofText t = .ok ts ↔
    t.all isAllowed = true ∧ ∃ n, (Layout.start (unifyBreaks t)).run n = .ok ts := by
  unfold Token.ofText
  split
  · next hallowed =>
    constructor
    · intro h
      exact ⟨hallowed, _, h⟩
    · rintro ⟨-, n, hn⟩
      exact Layout.run_of_length_lt hn (Nat.lt_succ_self _)
  · next hallowed => simp [hallowed]

end VersionDrift.Yaml
