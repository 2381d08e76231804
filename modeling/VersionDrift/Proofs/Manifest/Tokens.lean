import VersionDrift.Proofs.Manifest.Framed
import VersionDrift.Proofs.Yaml.Progress
import VersionDrift.Proofs.Yaml.Replaced
import VersionDrift.Proofs.Yaml.Sourced

/-!
# The tokens of a rewritten manifest

The version is found line by line, and the document is read token by token. Where the
token that is found is a scalar of the document, the tokens of the new text are those
of the old one with that scalar replaced.
-/

set_option autoImplicit false

namespace VersionDrift

namespace Yaml

theorem isAllowed_encode (style : Style) (v : Triple) :
    ∀ c ∈ style.encode v.dotted, isAllowed c = true := by
  intro c hc
  rcases Triple.mem_encode hc with hdigit | rfl | rfl | rfl
  · have hrange : 48 ≤ c.toNat ∧ c.toNat ≤ 57 := by
      simpa [Char.isDigit, UInt32.le_iff_toNat_le] using hdigit
    simp only [isAllowed, Bool.or_eq_true, Bool.and_eq_true, decide_eq_true_eq]
    omega
  all_goals rfl

end Yaml

theorem Line.take_indent_concat (l : Line) (h : l.indent ≠ 0) :
    ∃ spaces, l.text.take l.indent = spaces ++ [' '] := by
  rcases List.eq_nil_or_concat (l.text.take l.indent) with hnil | ⟨spaces, c, hc⟩
  · rw [← l.length_take_indent, hnil] at h
    exact absurd rfl h
  · rw [List.concat_eq_append] at hc
    have hmem : c ∈ l.text.take l.indent := by simp [hc]
    rw [l.take_indent] at hmem
    obtain rfl : c = ' ' := by simpa using List.all_eq_true.mp List.all_takeWhile c hmem
    exact ⟨spaces, hc⟩

theorem Field.SpellsVersion.unmarked {key : Text} (h : SpellsVersion key) :
    ∀ c ∈ key, c ≠ '&' ∧ c ≠ '!' := by
  have hblank {c : Char} (hc : Text.isBlank c = true) : c ≠ '&' ∧ c ≠ '!' := by
    constructor <;> rintro rfl <;> cases hc
  have hversion (c : Char) (hc : c ∈ versionKey) : c ≠ '&' ∧ c ≠ '!' := by
    have hall : versionKey.all (fun c => c ≠ '&' ∧ c ≠ '!') = true := rfl
    exact of_decide_eq_true (List.all_eq_true.mp hall c hc)
  cases h with
  | bare hblanks =>
    intro c hc
    exact (List.mem_append.mp hc).elim (hversion c) fun hc => hblank (hblanks c hc)
  | quoted hquote hblanks =>
    intro c hc
    simp only [List.cons_append, List.mem_cons, List.mem_append] at hc
    rcases hc with rfl | hc | rfl | hc
    · rcases hquote with rfl | rfl <;> decide
    · exact hversion c hc
    · rcases hquote with rfl | rfl <;> decide
    · exact hblank (hblanks c hc)

namespace Located

open Yaml

/-- The place is a scalar of the document: its token stands on one line after blanks, the text is
read token by token up to these blanks, and the next token is the value in its style. -/
def IsScalar (l : Located) : Prop :=
  (∀ c ∈ l.token, breaksLine c = false) ∧
    ∃ stem gap s r, l.before = stem ++ gap ∧ gap ≠ [] ∧ (∀ c ∈ gap, Text.isGap c = true) ∧
      Layout.Reads (unifyBreaks (l.before ++ l.token ++ l.after)) s ∧
      s.cursor.rest = gap ++ unifyBreaks (l.token ++ l.after) ∧ s.next = .ok (some r) ∧
      r.emitted.head? = some (.scalar l.value (scalarStyle l.style))

def isScalarAfter (l : Located) (stem gap : Text) (steps : Nat) : Bool :=
  (l.token.all fun c => !breaksLine c) && l.before = stem ++ gap && !gap.isEmpty &&
    gap.all Text.isGap &&
    match Layout.after? (unifyBreaks (l.before ++ l.token ++ l.after)) steps with
    | none => false
    | some s => s.cursor.rest = gap ++ unifyBreaks (l.token ++ l.after) &&
      match s.next with
      | .ok (some r) => r.emitted.head? = some (.scalar l.value (scalarStyle l.style))
      | _ => false

theorem isScalar_of_after {l : Located} (stem gap : Text) (steps : Nat)
    (h : l.isScalarAfter stem gap steps = true) : l.IsScalar := by
  simp only [isScalarAfter, Bool.and_eq_true, List.all_eq_true, Bool.not_eq_true',
    decide_eq_true_eq, List.isEmpty_eq_false_iff] at h
  obtain ⟨⟨⟨⟨hline, hbefore⟩, hne⟩, hgap⟩, h⟩ := h
  split at h
  · cases h
  · next s hs =>
    simp only [Bool.and_eq_true, decide_eq_true_eq] at h
    obtain ⟨hrest, h⟩ := h
    split at h
    · next r hr =>
      exact ⟨hline, stem, gap, s, r, hbefore, hne, hgap, Layout.reads_of_after hs, hrest, hr,
        of_decide_eq_true h⟩
    · cases h

theorem find_stem {t stem gap : Text} {l : Located} (h : find t = .ok l)
    (hbefore : l.before = stem ++ gap) (hgap : ∀ c ∈ gap, Text.isGap c = true) :
    ∃ x y, stem = x ++ ' ' :: y ∧ ∀ c ∈ y, c ≠ '&' ∧ c ≠ '!' := by
  obtain ⟨p, hp, hsight, rfl⟩ := find_eq_ok_iff.mp h
  obtain ⟨key, hhead, hkey⟩ := Field.spellsVersion hp.field hp.key
  obtain ⟨-, hscalarGap, -⟩ := Scalar.scan_eq_ok hp.scalar
  obtain ⟨spaces, hspaces⟩ := p.line.take_indent_concat hsight.indented
  have heq : stem ++ gap = ((p.above.map Line.whole).flatten ++ p.line.mark ++ spaces ++
      ' ' :: (key ++ [':'])) ++ p.scalar.gap := by
    rw [← hbefore]
    simp [Trace.located, hspaces, hhead]
  have hunmarked : ∀ c ∈ key ++ [':'], c ≠ '&' ∧ c ≠ '!' := by
    intro c hc
    rcases List.mem_append.mp hc with hc | hc
    · exact hkey.unmarked c hc
    · obtain rfl := List.mem_singleton.mp hc
      decide
  rcases List.append_eq_append_iff.mp heq with ⟨u, hu, hcut⟩ | ⟨u, rfl, hcut⟩
  · obtain rfl : u = [] := by
      refine Decidable.byContradiction fun hne => ?_
      have hcolon : ':' = u.getLast hne := by
        have hlast := congrArg List.getLast? hu
        simpa [List.getLast?_cons, List.getLast?_eq_some_getLast hne] using hlast
      have hgap' := hgap ':' (by rw [hcut, hcolon]; simp)
      cases hgap'
    exact ⟨_, key ++ [':'], (List.append_nil stem).symm.trans hu.symm, hunmarked⟩
  · refine ⟨_, key ++ [':'] ++ u, by rw [List.append_assoc, List.cons_append], fun c hc => ?_⟩
    rcases List.mem_append.mp hc with hc | hc
    · exact hunmarked c hc
    · have hgap' := hscalarGap c (by rw [hcut]; exact List.mem_append_left _ hc)
      constructor <;> rintro rfl <;> cases hgap'

theorem atLineEnd_after {t : Text} {l : Located} (h : find t = .ok l) :
    atLineEnd (unifyBreaks l.after) = true := by
  obtain ⟨p, hp, rfl⟩ := find_eq_ok h
  obtain ⟨-, -, -, hnoise, -⟩ := Scalar.scan_eq_ok hp.scalar
  obtain ⟨hending, hbelow⟩ := Line.ending_of_ofText hp.lines
  have hblanks (c : Char) (hc : c ∈ p.scalar.after.takeWhile Text.isGap) : Text.isGap c = true :=
    List.all_eq_true.mp List.all_takeWhile c hc
  have hsplit : p.located.after = p.scalar.after.takeWhile Text.isGap ++
      (p.scalar.after.dropWhile Text.isGap ++ p.line.ending ++
        (p.below.map Line.whole).flatten) := by
    rw [List.append_assoc, ← List.append_assoc (List.takeWhile ..), List.takeWhile_append_dropWhile,
      ← List.append_assoc]
    rfl
  rw [hsplit, unifyBreaks_append fun c hc => breaksLine_of_isGap (hblanks c hc),
    atLineEnd_append hblanks]
  unfold Scalar.isNoise at hnoise
  split at hnoise
  · next hnil =>
    rw [hnil, List.nil_append]
    rcases hending with hending | hending | hending | hending
    · by_cases hlast : p.below = []
      · rw [hending, hlast]
        rfl
      · exact absurd hending (hbelow hlast)
    · rw [hending]
      rfl
    · rw [hending]
      rfl
    · rw [hending]
      rfl
  · next c u hcons =>
    obtain rfl : c = '#' := by simpa using hnoise
    rw [hcons]
    rfl

section

variable {t stem gap : Text} {l : Located} {v : Triple} {s r : Layout}

theorem unifyBreaks_cut (hbefore : l.before = stem ++ gap) (hgap : ∀ c ∈ gap, Text.isGap c = true)
    (hne : gap ≠ []) {w : Text} (hw : ∀ c ∈ w, breaksLine c = false) :
    unifyBreaks (l.before ++ w ++ l.after) =
      (unifyBreaks stem ++ gap) ++ (w ++ unifyBreaks l.after) := by
  rw [hbefore]
  exact unifyBreaks_around stem hgap hne hw l.after

theorem reads_replaced (hfind : find t = .ok l) (hline : ∀ c ∈ l.token, breaksLine c = false)
    (hbefore : l.before = stem ++ gap) (hne : gap ≠ []) (hgap : ∀ c ∈ gap, Text.isGap c = true)
    (hreads : Layout.Reads (unifyBreaks t) s)
    (hrest : s.cursor.rest = gap ++ unifyBreaks (l.token ++ l.after))
    (hnext : s.next = .ok (some r))
    (hhead : r.emitted.head? = some (.scalar l.value (scalarStyle l.style))) :
    ∃ q r' : Layout, q = s.withCursor ⟨gap ++ (l.style.encode v.dotted ++ unifyBreaks l.after),
        s.cursor.line, s.cursor.column⟩ ∧
      Layout.Reads (unifyBreaks (l.before ++ l.style.encode v.dotted ++ l.after)) q ∧
      q.next = .ok (some r') ∧ Layout.Shifted l.value v.dotted 1 r r' := by
  obtain ⟨rfl, hspells⟩ := find_append hfind
  have hblank : ∀ b ∈ (unifyBreaks stem ++ gap).getLast?, isBlank b = true := by
    intro b hb
    rw [List.getLast?_append, List.getLast?_eq_some_getLast hne, Option.some_or] at hb
    exact hgap b (Option.some.inj hb ▸ List.getLast_mem hne)
  rw [unifyBreaks_cut hbefore hgap hne hline] at hreads
  rw [unifyBreaks_append hline] at hrest
  have hlong : (l.token ++ unifyBreaks l.after).length < s.cursor.rest.length := by
    have hgapLength := List.length_pos_iff.mpr hne
    have hlength : (gap ++ (l.token ++ unifyBreaks l.after)).length =
        gap.length + (l.token ++ unifyBreaks l.after).length := List.length_append
    rw [hrest, hlength]
    omega
  obtain ⟨s', hreads', c, hc, rfl⟩ := hreads.forked
    (.of_append (Y := l.style.encode v.dotted ++ unifyBreaks l.after) hblank) hlong
  obtain ⟨hforked, hcline, hccolumn⟩ := hc hlong
  obtain ⟨q, hq, hq'⟩ := hforked.eq_append
  obtain rfl : gap = q := List.append_cancel_right (hrest.symm.trans hq)
  -- there one reads the old token and the other the new one
  have hbare : s.Bare := by
    obtain ⟨x, y, rfl, hy⟩ := find_stem hfind hbefore hgap
    rw [unifyBreaks_append_blank, List.append_assoc, ← hrest] at hreads
    refine hreads.bare_of_unmarked fun c hc => ?_
    rcases mem_unifyBreaks hc with rfl | hc
    · decide
    · exact hy c hc
  obtain ⟨r', hnext', hshift⟩ := Layout.next_replaced (v := v) hgap hne hspells
    (fun d hd => isBreak_of_breaksLine (hline d hd)) (atLineEnd_after hfind) hbare hrest hnext hhead
  have hcursor : c = ⟨gap ++ (l.style.encode v.dotted ++ unifyBreaks l.after), s.cursor.line,
      s.cursor.column⟩ := by
    obtain ⟨rest, line, column⟩ := c
    obtain rfl : rest = _ := hq'
    obtain rfl : line = _ := hcline
    obtain rfl : column = _ := hccolumn
    rfl
  rw [hcursor, ← unifyBreaks_cut hbefore hgap hne (breaksLine_encode l.style v)] at hreads'
  exact ⟨_, r', rfl, hreads', hnext', hshift⟩

theorem isAllowed_replaced (hfind : find t = .ok l) (hallowed : t.all isAllowed = true) :
    (l.before ++ l.style.encode v.dotted ++ l.after).all isAllowed = true := by
  obtain ⟨rfl, -⟩ := find_append hfind
  simp only [List.all_append, Bool.and_eq_true] at hallowed ⊢
  exact ⟨⟨hallowed.1.1, List.all_eq_true.mpr (isAllowed_encode l.style v)⟩, hallowed.2⟩

/-- The text with another version in place of a scalar has tokens again, which are the old ones with
that scalar replaced. -/
theorem tokens_replaced {ts : List Token} (hfind : find t = .ok l) (h : l.IsScalar)
    (hts : Token.ofText t = .ok ts) (hlast : ∀ t ∈ ts.getLast?, t.isScalar = false) :
    ∃ ts', Token.ofText (l.before ++ l.style.encode v.dotted ++ l.after) = .ok ts' ∧
      Summed (Token.Edited l.value v.dotted) 1 ts ts' ∧ Token.Bare ts ts' := by
  obtain ⟨hline, stem, gap, s, r, hbefore, hne, hgap, hreads, hrest, hnext, hhead⟩ := h
  rw [(find_append hfind).1] at hreads
  obtain ⟨hallowed, n, hrun⟩ := Token.ofText_eq_ok.mp hts
  obtain ⟨q, r', -, hreads', hnext', hshift⟩ :=
    reads_replaced (v := v) hfind hline hbefore hne hgap hreads hrest hnext hhead
  obtain ⟨m, hm⟩ := (hreads.next hnext).run hrun
  have hmore : ts ≠ r.emitted.reverse := by
    rintro rfl
    rw [List.getLast?_reverse] at hlast
    cases hlast _ hhead
  obtain ⟨ts', hm', hedited⟩ := hshift.run (Nat.le_refl m) hm hmore
  obtain ⟨n', hrun'⟩ := (hreads'.next hnext').run_start hm'
  exact ⟨ts', Token.ofText_eq_ok.mpr ⟨isAllowed_replaced hfind hallowed, n', hrun'⟩, hedited⟩

end

/-- The text with another version in place of a scalar is a document again, which differs in one
leaf. -/
theorem document_replaced {t : Text} {l : Located} {v : Triple} {d : Document}
    (hfind : find t = .ok l) (h : l.IsScalar) (hne : l.value ≠ v.dotted)
    (hd : Document.ofText t = .ok d) (hroot : d.root.isScalar = false) :
    ∃ d', Document.ofText (l.before ++ l.style.encode v.dotted ++ l.after) = .ok d' ∧
      Document.Edited l.value v.dotted 1 d d' := by
  obtain ⟨ts, hts, hd⟩ := bind_eq_ok hd
  obtain ⟨-, hlast⟩ := Document.ofTokens_sourced hd
  obtain ⟨ts', hts', hedited, hbare⟩ := tokens_replaced (v := v) hfind h hts (hlast hroot)
  obtain ⟨d', hd', hdocument⟩ := Document.ofTokens_edited hne hedited hbare hd
  refine ⟨d', ?_, hdocument⟩
  unfold Document.ofText
  rw [hts']
  exact hd'

end Located
end VersionDrift
