import VersionDrift.Proofs.Manifest.Rewriting

/-!
# Finding the version again

A dotted version takes the place of a token without disturbing anything around it:
the scalar is scanned again in the same style, the field and the line are cut in the
same way, and the search comes to the same line. So the place of the version in a
rewritten text is the old place with the new token.
-/

set_option autoImplicit false

namespace VersionDrift

namespace Triple

variable (v : Triple)

theorem isGap_of_mem_dotted {c : Char} (h : c ∈ v.dotted) : Text.isGap c = false := by
  refine Bool.eq_false_iff.mpr fun hgap => ?_
  have hblank : c = ' ' ∨ c = '\t' := by simpa [Text.isGap] using hgap
  rcases hblank with rfl | rfl
  · exact not_mem_dotted (by decide) (by decide) h
  · exact not_mem_dotted (by decide) (by decide) h

theorem isCommentFree_dotted : Scalar.IsCommentFree v.dotted := fun x c y h =>
  v.isGap_of_mem_dotted (by rw [h]; simp)

theorem spells_encode (style : Style) : style.Spells (style.encode v.dotted) v.dotted := by
  cases style with
  | plain =>
    rw [v.encode_plain]
    cases hdotted : v.dotted with
    | nil => exact absurd hdotted (by simp [dotted])
    | cons c t =>
      have hc : c ∈ v.dotted := hdotted ▸ List.mem_cons_self
      have hother (d : Char) (hd : d.isDigit = false) (hpoint : d ≠ '.') : c ≠ d := by
        rintro rfl
        exact not_mem_dotted hd hpoint hc
      refine .plain ?_ fun d hd => ?_
      · simp [Scalar.beginsNoValue, v.isGap_of_mem_dotted hc, hother]
      exact v.isGap_of_mem_dotted (hdotted ▸ List.mem_of_getLast? hd)
  | single => exact .single v.dotted
  | double =>
    rw [v.encode_double]
    exact .double (not_mem_dotted (by decide) (by decide)) (not_mem_dotted (by decide) (by decide))

theorem not_mem_encode (style : Style) {c : Char} (hdigit : c.isDigit = false) (hpoint : c ≠ '.')
    (hsingle : c ≠ '\'') (hdouble : c ≠ '"') : c ∉ style.encode v.dotted := by
  intro h
  have hc := mem_encode h
  simp [hdigit, hpoint, hsingle, hdouble] at hc

theorem feed_not_mem_encode (style : Style) : '\n' ∉ style.encode v.dotted :=
  v.not_mem_encode style (by decide) (by decide) (by decide) (by decide)

theorem return_not_mem_encode (style : Style) : '\r' ∉ style.encode v.dotted :=
  v.not_mem_encode style (by decide) (by decide) (by decide) (by decide)

theorem getLast?_encode (style : Style) {s token after : Text}
    (h : (s ++ (token ++ after)).getLast? ≠ some '\r') :
    (s ++ (style.encode v.dotted ++ after)).getLast? ≠ some '\r' := by
  cases after with
  | nil =>
    obtain ⟨c, u, htoken, -⟩ := (v.spells_encode style).eq_cons
    have hend := v.return_not_mem_encode style
    rw [htoken] at hend ⊢
    intro hlast
    refine hend (List.mem_of_getLast? ?_)
    simpa [List.getLast?_append, List.getLast?_cons] using hlast
  | cons e a => simpa [List.getLast?_append, List.getLast?_cons] using h

end Triple

namespace Scalar

def withVersion (s : Scalar) (v : Triple) : Scalar :=
  { s with token := s.style.encode v.dotted, value := v.dotted }

theorem scan_withVersion {t : Text} {s : Scalar} (h : scan t = .ok s) (v : Triple) :
    scan (s.gap ++ (s.style.encode v.dotted ++ s.after)) = .ok (s.withVersion v) := by
  obtain ⟨-, hgap, -, hnoise, hafter, -⟩ := scan_eq_ok h
  refine scan_of_spells hgap (v.spells_encode s.style) hnoise hafter fun hstyle => ?_
  rw [hstyle, v.encode_plain]
  exact v.isCommentFree_dotted

end Scalar

namespace Field

theorem atGap_append_colon (k a b : Text) : atGap (k ++ ':' :: a) = atGap (k ++ ':' :: b) := by
  cases k <;> rfl

theorem untilColon_withRest {t key rest rest' : Text} (h : untilColon t = some (key, rest))
    (hrest : atGap rest' = true) : untilColon (key ++ ':' :: rest') = some (key, rest') := by
  induction t generalizing key with
  | nil => cases h
  | cons c t ih =>
    unfold untilColon at h
    split at h
    · obtain ⟨rfl, rfl⟩ := Prod.mk.inj (Option.some.inj h)
      simp [untilColon, hrest]
    · next hc =>
      obtain ⟨⟨k, r⟩, hk, heq⟩ := Option.map_eq_some_iff.mp h
      obtain ⟨rfl, rfl⟩ := Prod.mk.inj heq
      rw [(untilColon_eq_some hk).1, atGap_append_colon k _ rest'] at hc
      rw [List.cons_append, untilColon, if_neg hc, ih hk]
      rfl

theorem quoted?_withRest {quote : Char} {t rest : Text} {f : Field} (h : quoted? quote t = some f)
    (hrest : atGap rest = true) :
    ∃ u, f.head = quote :: u ∧ quoted? quote (u ++ rest) = some { f with rest := rest } := by
  unfold quoted? at h
  dsimp only at h
  rw [Text.drop_length_takeWhile] at h
  split at h
  · cases h
  next close r hclose =>
  rw [Text.drop_length_takeWhile] at h
  split at h
  next rest' hcolon =>
    split at h
    · obtain rfl := Option.some.inj h
      have hkey (c : Char) (hc : c ∈ t.takeWhile (· ≠ quote)) : decide (c ≠ quote) = true :=
        List.all_eq_true.mp List.all_takeWhile c hc
      have hgap (c : Char) (hc : c ∈ r.takeWhile Text.isBlank) : Text.isBlank c = true :=
        List.all_eq_true.mp List.all_takeWhile c hc
      generalize t.takeWhile (· ≠ quote) = key at hkey ⊢
      generalize r.takeWhile Text.isBlank = gap at hgap ⊢
      refine ⟨key ++ close :: gap ++ [':'], by simp, ?_⟩
      have hquote : decide (close ≠ quote) = false := Text.head_dropWhile hclose
      have htext : key ++ close :: gap ++ [':'] ++ rest = key ++ close :: (gap ++ ':' :: rest) := by
        simp
      unfold quoted?
      dsimp only
      rw [Text.drop_length_takeWhile, htext, Text.dropWhile_append_cons hkey hquote,
        Text.takeWhile_append_cons hkey hquote]
      simp only
      rw [Text.drop_length_takeWhile, Text.dropWhile_append_cons hgap rfl,
        Text.takeWhile_append_cons hgap rfl]
      exact if_pos hrest
    · cases h
  · cases h

theorem ofText?_withRest {t rest : Text} {f : Field} (h : ofText? t = some f)
    (hrest : atGap rest = true) : ofText? (f.head ++ rest) = some { f with rest := rest } := by
  cases t with
  | nil => cases h
  | cons c t =>
    simp only [ofText?] at h
    split at h
    · next hquote =>
      obtain ⟨u, hu, hagain⟩ := quoted?_withRest h hrest
      rw [hu, List.cons_append, ofText?, if_pos hquote, hagain, ← hu]
    next hquote =>
    split at h
    · cases h
    next hkey =>
    obtain ⟨⟨key, rest'⟩, hsplit, rfl⟩ := Option.map_eq_some_iff.mp h
    have hhead : ∃ u, key ++ [':'] = c :: u := by
      have ht := (untilColon_eq_some hsplit).1
      cases key with
      | nil =>
        obtain ⟨rfl, -⟩ := List.cons.inj ht
        exact ⟨[], rfl⟩
      | cons d key =>
        obtain ⟨rfl, -⟩ := List.cons.inj ht
        exact ⟨key ++ [':'], rfl⟩
    obtain ⟨u, hu⟩ := hhead
    have hagain : bare? (c :: (u ++ rest)) = some ⟨Text.trimEnd key, key ++ [':'], rest⟩ := by
      rw [bare?, ← List.cons_append, ← hu, List.append_assoc, List.singleton_append,
        untilColon_withRest hsplit hrest]
      rfl
    dsimp only
    rw [hu, List.cons_append, ofText?, if_neg hquote, if_neg hkey, hagain, hu]

end Field

namespace Line

/-- Only the first line has a mark, and then its text does not begin with another one. -/
def IsMarked (first : Bool) (l : Line) : Prop := ofEnded first l.whole = l

theorem map_isMarked {ls : List Text} :
    ∀ l ∈ ls.map (ofEnded false), IsMarked false l := by
  intro l hl
  obtain ⟨ended, -, rfl⟩ := List.mem_map.mp hl
  rw [IsMarked, whole_ofEnded]

theorem map_whole_of_isMarked {ls : List Line} (h : ∀ l ∈ ls, IsMarked false l) :
    (ls.map whole).map (ofEnded false) = ls := by
  rw [List.map_map]
  exact (List.map_congr_left h).trans (List.map_id ls)

theorem ofText_eq_cons_iff {t : Text} {l : Line} {ls : List Line} :
    ofText t = l :: ls ↔ Text.endedLines t = (l :: ls).map whole ∧ IsMarked true l ∧
      ∀ l' ∈ ls, IsMarked false l' := by
  constructor
  · intro h
    have hlines := map_whole_ofText t
    rw [h] at hlines
    refine ⟨hlines.symm, ?_⟩
    rw [ofText, ← hlines] at h
    obtain ⟨hl, hls⟩ := List.cons.inj h
    exact ⟨hl, hls ▸ map_isMarked⟩
  · rintro ⟨hlines, hl, hls⟩
    rw [ofText, hlines, List.map_cons]
    dsimp only
    rw [map_whole_of_isMarked hls, hl]

theorem IsMarked.body {first : Bool} {l : Line} (h : IsMarked first l) :
    Text.lineBody l.whole = l.mark ++ l.text := by
  rw [← body_ofEnded first l.whole, h]

theorem IsMarked.withText {first : Bool} {l : Line} {c : Char} {t t' : Text}
    (h : IsMarked first l) (ht : l.text = c :: t)
    (hbody : Text.lineBody ({ l with text := c :: t' } : Line).whole = l.mark ++ c :: t') :
    IsMarked first { l with text := c :: t' } := by
  obtain ⟨mark, text, ending⟩ := l
  obtain rfl : text = c :: t := ht
  have hold : Text.lineBody (Line.mk mark (c :: t) ending).whole = mark ++ c :: t := h.body
  have hending (u : Text) : (Line.mk mark u ending).whole.drop (mark ++ u).length = ending :=
    List.drop_left
  simp only [IsMarked, ofEnded, hold, hbody, hending] at h ⊢
  cases mark with
  | nil =>
    dsimp only [List.nil_append] at h ⊢
    split at h
    · cases h
    · next hfirst => rw [if_neg hfirst]
  | cons d mark =>
    dsimp only [List.cons_append] at h ⊢
    split at h
    · next hfirst =>
      rw [if_pos hfirst]
      obtain rfl : mark = [] := (List.cons.inj (Line.mk.inj h).1).2.symm
      rfl
    · cases h

theorem length_take_indent (l : Line) : (l.text.take l.indent).length = l.indent := by
  rw [List.length_take, Nat.min_eq_left]
  exact (List.takeWhile_sublist _).length_le

theorem take_indent (l : Line) : l.text.take l.indent = l.text.takeWhile (· = ' ') := by
  conv => lhs; rw [← List.takeWhile_append_dropWhile (p := (· = ' ')) (l := l.text)]
  exact List.take_left

theorem body_of_mem {t : Text} {l : Line} (h : l ∈ ofText t) :
    Text.lineBody l.whole = l.mark ++ l.text := by
  unfold ofText at h
  split at h
  · cases h
  · rcases List.mem_cons.mp h with rfl | h
    · rw [whole_ofEnded, body_ofEnded]
    · obtain ⟨ended, -, rfl⟩ := List.mem_map.mp h
      rw [whole_ofEnded, body_ofEnded]

theorem feed_not_mem {t : Text} {l : Line} (h : l ∈ ofText t) : '\n' ∉ l.mark ++ l.text := by
  have hmem : l.whole ∈ Text.endedLines t := by
    rw [← map_whole_ofText]
    exact List.mem_map_of_mem h
  obtain ⟨b, hb, hshape⟩ := Text.shape_of_mem_endedLines hmem
  rw [← body_of_mem h]
  exact Text.feed_not_mem_lineBody hb hshape

theorem return_mem_ending {t : Text} {l : Line} (h : l ∈ ofText t) :
    '\r' ∈ l.ending ∨ (l.mark ++ l.text).getLast? ≠ some '\r' := by
  obtain ⟨-, -, -, hreturn⟩ := Text.lineBody_lineEnding l.whole
  rwa [← ending_eq_of_mem h, body_of_mem h] at hreturn

/-- A text with other words on one of its lines has the same lines else. -/
theorem ofText_withText {t : Text} {above below : List Line} {l : Line} {c : Char} {r r' : Text}
    (h : ofText t = above ++ l :: below) (htext : l.text = c :: r)
    (hfeed : '\n' ∉ r') (hreturn : '\r' ∈ l.ending ∨ (c :: r').getLast? ≠ some '\r') :
    ofText ((above.map whole).flatten ++ ({ l with text := c :: r' } : Line).whole ++
      (below.map whole).flatten) = above ++ { l with text := c :: r' } :: below := by
  have hmem : l ∈ ofText t := by simp [h]
  have hending : Text.IsEnding l.ending := (ending_of_ofText h).1
  have hold : '\n' ∉ l.mark ++ l.text := feed_not_mem hmem
  have hnew : '\n' ∉ l.mark ++ c :: r' := by
    simp only [htext, List.mem_append, List.mem_cons, not_or] at hold ⊢
    exact ⟨hold.1, hold.2.1, hfeed⟩
  have hbody : Text.lineBody ({ l with text := c :: r' } : Line).whole = l.mark ++ c :: r' := by
    refine Text.lineBody_append_ending hending hnew (hreturn.imp_right fun hlast => ?_)
    rwa [List.getLast?_append, List.getLast?_cons, Option.some_or, ← List.getLast?_cons]
  have hlines : Text.endedLines t =
      above.map whole ++ (l.mark ++ l.text ++ l.ending) :: below.map whole := by
    rw [← map_whole_ofText, h, List.map_append, List.map_cons]
    rfl
  have hended := Text.endedLines_replaced hlines hold hnew (by simp) hending
  cases above with
  | nil =>
    obtain ⟨-, hl, hbelow⟩ := ofText_eq_cons_iff.mp h
    exact ofText_eq_cons_iff.mpr ⟨hended, hl.withText htext hbody, hbelow⟩
  | cons a above =>
    obtain ⟨-, ha, hrest⟩ := ofText_eq_cons_iff.mp h
    refine ofText_eq_cons_iff.mpr ⟨?_, ha, ?_⟩
    · simpa [whole] using hended
    · intro l' hl'
      rcases List.mem_append.mp hl' with hl' | hl'
      · exact hrest l' (List.mem_append_left _ hl')
      · rcases List.mem_cons.mp hl' with rfl | hl'
        · exact (hrest l (by simp)).withText htext hbody
        · exact hrest l' (by simp [hl'])

end Line

namespace Trace

def withVersion (p : Trace) (v : Triple) : Trace :=
  let rest := p.scalar.gap ++ (p.scalar.style.encode v.dotted ++ p.scalar.after)
  { p with
    line := { p.line with text := p.line.text.take p.line.indent ++ (p.field.head ++ rest) }
    field := { p.field with rest := rest }
    scalar := p.scalar.withVersion v }

variable {lines : List Line} {p : Trace}

theorem Through.text (h : Through lines p) :
    p.line.text = p.line.text.takeWhile (· = ' ') ++ (p.field.head ++ p.field.rest) := by
  obtain ⟨hfield, -, -⟩ := Field.ofText?_eq_some h.field
  rw [← hfield, Line.indent, Text.drop_length_takeWhile, List.takeWhile_append_dropWhile]

theorem Through.head (h : Through lines p) : ∃ c t, p.field.head = c :: t ∧ c ≠ ' ' := by
  obtain ⟨hfield, ⟨k, hk⟩, -⟩ := Field.ofText?_eq_some h.field
  cases hhead : p.field.head with
  | nil => simp [hhead] at hk
  | cons c t =>
    refine ⟨c, t, rfl, ?_⟩
    rw [Line.indent, Text.drop_length_takeWhile, hhead, List.cons_append] at hfield
    simpa using Text.head_dropWhile hfield

theorem indent_withVersion (h : Through lines p) (v : Triple) :
    (p.withVersion v).line.indent = p.line.indent := by
  obtain ⟨c, t, hhead, hc⟩ := h.head
  have hspaces (d : Char) (hd : d ∈ p.line.text.takeWhile (· = ' ')) : decide (d = ' ') = true :=
    List.all_eq_true.mp List.all_takeWhile d hd
  have htake := p.line.take_indent
  simp only [withVersion, Line.indent] at htake ⊢
  rw [htake, hhead, List.cons_append, Text.takeWhile_append_cons hspaces (by simpa using hc)]

theorem Through.atGap (h : Through lines p) (t : Text) :
    Field.atGap (p.scalar.gap ++ t) = true := by
  obtain ⟨-, -, hrest⟩ := Field.ofText?_eq_some h.field
  obtain ⟨hcut, hgap, hspells, -⟩ := Scalar.scan_eq_ok h.scalar
  obtain ⟨c, u, htoken, hc, -⟩ := hspells.eq_cons
  cases hgapCut : p.scalar.gap with
  | nil =>
    rw [hcut, hgapCut, htoken, List.nil_append, List.cons_append, Field.atGap, hc] at hrest
    cases hrest
  | cons d gap => exact hgap d (by simp [hgapCut])

theorem Through.withVersion (h : Through lines p) (v : Triple) :
    Through (p.above ++ (p.withVersion v).line :: p.below) (p.withVersion v) := by
  refine ⟨rfl, ?_, h.key, Scalar.scan_withVersion h.scalar v⟩
  rw [indent_withVersion h v]
  have hdrop : (p.withVersion v).line.text.drop p.line.indent =
      p.field.head ++ (p.withVersion v).field.rest :=
    List.drop_left' p.line.length_take_indent
  rw [hdrop]
  exact Field.ofText?_withRest h.field (h.atGap _)

theorem located_withVersion (h : Through lines p) (v : Triple) : (p.withVersion v).located =
    { p.located with token := p.scalar.style.encode v.dotted, value := v.dotted } := by
  have htake : (p.withVersion v).line.text.take (p.withVersion v).line.indent =
      p.line.text.take p.line.indent := by
    rw [indent_withVersion h v]
    exact List.take_left' p.line.length_take_indent
  rw [located, htake]
  rfl

theorem ofText_withVersion {t : Text} (h : Through (Line.ofText t) p) (v : Triple) :
    Line.ofText (p.located.before ++ p.scalar.style.encode v.dotted ++ p.located.after) =
      p.above ++ (p.withVersion v).line :: p.below := by
  obtain ⟨hscalar, -, hspells, -⟩ := Scalar.scan_eq_ok h.scalar
  have hmem : p.line ∈ Line.ofText t := by simp [h.lines]
  obtain ⟨d, w, hstem⟩ : ∃ d w, p.line.text.take p.line.indent ++ p.field.head = d :: w := by
    obtain ⟨c, u, hhead, -⟩ := h.head
    exact List.exists_cons_of_ne_nil (by simp [hhead])
  have hold : p.line.text =
      d :: (w ++ (p.scalar.gap ++ (p.scalar.token ++ p.scalar.after))) := by
    obtain ⟨hfield, -, -⟩ := Field.ofText?_eq_some h.field
    rw [← List.append_assoc p.scalar.gap, ← hscalar, ← List.cons_append, ← hstem,
      List.append_assoc, ← hfield, List.take_append_drop]
  have hnew : (p.withVersion v).line.text =
      d :: (w ++ (p.scalar.gap ++ (p.scalar.style.encode v.dotted ++ p.scalar.after))) := by
    rw [← List.cons_append, ← hstem, List.append_assoc]
    rfl
  have hfeed : '\n' ∉
      w ++ (p.scalar.gap ++ (p.scalar.style.encode v.dotted ++ p.scalar.after)) := by
    have hfeed := Line.feed_not_mem hmem
    rw [hold] at hfeed
    simp only [List.mem_append, List.mem_cons, not_or] at hfeed ⊢
    exact ⟨hfeed.2.2.1, hfeed.2.2.2.1, v.feed_not_mem_encode _, hfeed.2.2.2.2.2⟩
  have hreturn : '\r' ∈ p.line.ending ∨ (p.withVersion v).line.text.getLast? ≠ some '\r' := by
    refine (Line.return_mem_ending hmem).imp_right fun hmarked => ?_
    have hlast : p.line.text.getLast? ≠ some '\r' := fun h =>
      hmarked (by rw [List.getLast?_append, h]; rfl)
    rw [hold, ← List.append_assoc w, ← List.cons_append] at hlast
    rw [hnew, ← List.append_assoc w, ← List.cons_append]
    exact v.getLast?_encode p.scalar.style hlast
  rw [hnew] at hreturn
  have hline : ({ p.line with text := d :: (w ++ (p.scalar.gap ++
      (p.scalar.style.encode v.dotted ++ p.scalar.after))) } : Line) = (p.withVersion v).line := by
    rw [← hnew]
    rfl
  have hlines := Line.ofText_withText h.lines hold hfeed hreturn
  rw [hline] at hlines
  rw [← hlines, Line.whole, hnew, ← List.cons_append, ← hstem]
  simp [located, withVersion]

end Trace

namespace Located

/-- In a rewritten text the version is found at the old place. -/
theorem find_encode {t : Text} {l : Located} (h : find t = .ok l) (v : Triple) :
    find (l.before ++ l.style.encode v.dotted ++ l.after) =
      .ok { l with token := l.style.encode v.dotted, value := v.dotted } := by
  obtain ⟨p, hp, hsight, rfl⟩ := find_eq_ok_iff.mp h
  have hthere : Trace.Through (Line.ofText (p.located.before ++ p.located.style.encode v.dotted ++
      p.located.after)) (p.withVersion v) := by
    have hlines := Trace.ofText_withVersion hp v
    exact hlines ▸ hp.withVersion v
  have hsight' : InSight (p.withVersion v).line.indent (p.withVersion v).above := by
    rw [Trace.indent_withVersion hp v]
    exact hsight
  exact find_eq_ok_iff.mpr ⟨_, hthere, hsight', (Trace.located_withVersion hp v).symm⟩

end Located
end VersionDrift
