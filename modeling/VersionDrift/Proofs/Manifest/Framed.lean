import VersionDrift.Proofs.Except
import VersionDrift.Proofs.Manifest.Relocated
import VersionDrift.Proofs.Text.Split

/-!
# The text around the version

What a rewrite leaves alone is a frame: the lines above the version, its own line up
to the token and on from it, and the lines below. The token in the frame is the
version in the style of the old one, never in another.
-/

set_option autoImplicit false

namespace VersionDrift

namespace Text

theorem endedLines_above {t line : Text} {above below : List Text}
    (h : endedLines t = above ++ line :: below) :
    ∃ ls : List Text, above = ls.map (· ++ ['\n']) ∧ ∀ l ∈ ls, '\n' ∉ l := by
  induction above generalizing t with
  | nil => exact ⟨[], rfl, by simp⟩
  | cons l above ih =>
    obtain ⟨b, hb, ⟨rfl, hrest⟩ | ⟨-, -, hrest⟩⟩ := endedLines_eq_cons h
    · obtain ⟨ls, rfl, hls⟩ := ih hrest
      exact ⟨b :: ls, rfl, List.forall_mem_cons.mpr ⟨hb, hls⟩⟩
    · simp at hrest

theorem endedLines_below {t b e : Text} {above below : List Text}
    (h : endedLines t = above ++ (b ++ e) :: below) (hb : '\n' ∉ b) (he : IsEnding e) :
    ∃ (r : Text) (ls : List Text), e ++ below.flatten = r ++ (ls.map ('\n' :: ·)).flatten ∧
      (r = [] ∨ r = ['\r']) ∧ ∀ l ∈ ls, '\n' ∉ l := by
  have hpieces (l : Text) (hl : l ∈ splitAt '\n' below.flatten) : '\n' ∉ l :=
    not_mem_of_mem_splitAt hl
  have hlast (he : '\n' ∉ e) : below = [] := by
    refine Decidable.byContradiction fun hne => ?_
    have hmem := List.mem_of_getLast? (endedLines_getLast h hne)
    simp [hb, he] at hmem
  rcases he with rfl | rfl | rfl | rfl
  · exact ⟨[], [], by simp [hlast], .inl rfl, by simp⟩
  · exact ⟨[], _, by rw [splitAt_flatten]; rfl, .inl rfl, hpieces⟩
  · exact ⟨['\r'], [], by simp [hlast], .inr rfl, by simp⟩
  · exact ⟨['\r'], _, by rw [splitAt_flatten]; rfl, .inr rfl, hpieces⟩

end Text

namespace Style

def written : Style → Text → Text
  | plain, t => t
  | single, t => singleQuoted t
  | double, t => '"' :: t ++ ['"']

theorem Spells.eq_written {style : Style} {token value : Text} (h : style.Spells token value) :
    token = style.written value := by
  cases h <;> rfl

theorem encode_dotted (style : Style) (v : Triple) :
    style.encode v.dotted = style.written v.dotted := by
  cases style with
  | plain => exact v.encode_plain
  | single => rfl
  | double => exact v.encode_double

end Style

namespace Field

inductive SpellsVersion : Text → Prop
  | bare {blanks : Text} (h : ∀ c ∈ blanks, Text.isBlank c = true) :
      SpellsVersion (versionKey ++ blanks)
  | quoted {quote : Char} {blanks : Text} (hquote : quote = '"' ∨ quote = '\'')
      (h : ∀ c ∈ blanks, Text.isBlank c = true) :
      SpellsVersion (quote :: versionKey ++ quote :: blanks)

theorem spellsVersion_quoted {quote : Char} {t : Text} {f : Field} (h : quoted? quote t = some f)
    (hquote : quote = '"' ∨ quote = '\'') (hkey : f.key = versionKey) :
    ∃ key, f.head = key ++ [':'] ∧ SpellsVersion key := by
  unfold quoted? at h
  dsimp only at h
  rw [Text.drop_length_takeWhile] at h
  split at h
  · cases h
  next close r hclose =>
  obtain rfl : close = quote := by simpa using Text.head_dropWhile hclose
  rw [Text.drop_length_takeWhile] at h
  split at h
  next rest hcolon =>
    split at h
    · obtain rfl := Option.some.inj h
      have hblanks (c : Char) (hc : c ∈ r.takeWhile Text.isBlank) : Text.isBlank c = true :=
        List.all_eq_true.mp List.all_takeWhile c hc
      have hkey : t.takeWhile (· ≠ close) = versionKey := hkey
      exact ⟨_, by rw [hkey], .quoted hquote hblanks⟩
    · cases h
  · cases h

theorem spellsVersion {t : Text} {f : Field} (h : ofText? t = some f) (hkey : f.key = versionKey) :
    ∃ key, f.head = key ++ [':'] ∧ SpellsVersion key := by
  cases t with
  | nil => cases h
  | cons c t =>
    simp only [ofText?] at h
    split at h
    · next hquote => exact spellsVersion_quoted h (by simpa using hquote) hkey
    split at h
    · cases h
    · obtain ⟨⟨key, rest⟩, -, rfl⟩ := Option.map_eq_some_iff.mp h
      obtain ⟨blanks, hcut, hblanks⟩ := Text.dropEndWhile_append Text.isBlank key
      have hkey : Text.dropEndWhile Text.isBlank key = versionKey := hkey
      rw [hkey] at hcut
      exact ⟨key, rfl, hcut ▸ .bare hblanks⟩

end Field

/-- A text with a place for a token on one of its lines. -/
structure Frame where
  above : List Text
  opening : Text
  closing : Text
  below : List Text

namespace Frame

def before (f : Frame) : Text := (f.above.map (· ++ ['\n'])).flatten ++ f.opening

def after (f : Frame) : Text := f.closing ++ (f.below.map ('\n' :: ·)).flatten

def filled (f : Frame) (token : Text) : Text := f.before ++ token ++ f.after

def OpensVersion (t : Text) : Prop :=
  ∃ spaces key gap, t = spaces ++ key ++ ':' :: gap ∧ (∀ c ∈ spaces, c = ' ') ∧
    Field.SpellsVersion key ∧ gap ≠ [] ∧ ∀ c ∈ gap, Text.isGap c = true

def ClosesLine (t : Text) : Prop :=
  ∃ blanks comment ending, t = blanks ++ comment ++ ending ∧
    (∀ c ∈ blanks, Text.isGap c = true) ∧ (comment = [] ∨ comment.head? = some '#') ∧
    (ending = [] ∨ ending = ['\r'])

/-- The place is the one of the version, below the field that holds it. -/
structure IsVersion (f : Frame) : Prop where
  above : f.above ≠ [] ∧ ∀ l ∈ f.above, '\n' ∉ l
  opening : OpensVersion f.opening ∧ '\n' ∉ f.opening
  closing : ClosesLine f.closing ∧ '\n' ∉ f.closing
  below : ∀ l ∈ f.below, '\n' ∉ l

theorem splitAt_filled {f : Frame} (hf : f.IsVersion) {token : Text} (htoken : '\n' ∉ token) :
    Text.splitAt '\n' (f.filled token) =
      f.above ++ (f.opening ++ token ++ f.closing) :: f.below := by
  have hline : '\n' ∉ f.opening ++ token ++ f.closing := by
    simp [hf.opening.2, htoken, hf.closing.2]
  rw [← Text.splitAt_begun hline hf.below, ← Text.splitAt_ended hf.above.2]
  simp [filled, before, after]

end Frame

namespace Scalar

theorem closesLine {t r : Text} (ht : isNoise t = true) (hr : r = [] ∨ r = ['\r']) :
    Frame.ClosesLine (t ++ r) := by
  refine ⟨t.takeWhile Text.isGap, t.dropWhile Text.isGap, r, ?_, ?_, ?_, hr⟩
  · rw [List.takeWhile_append_dropWhile]
  · exact fun c hc => List.all_eq_true.mp List.all_takeWhile c hc
  · unfold isNoise at ht
    split at ht
    · next hnil => exact .inl hnil
    · next c u hcons =>
      obtain rfl : c = '#' := by simpa using ht
      exact .inr (by rw [hcons]; rfl)

end Scalar

namespace Line

theorem mark_of_above {t : Text} {above below : List Line} {l : Line}
    (h : ofText t = above ++ l :: below) (hne : above ≠ []) : l.mark = [] := by
  cases above with
  | nil => exact absurd rfl hne
  | cons a above =>
    obtain ⟨-, -, hrest⟩ := ofText_eq_cons_iff.mp h
    have hl : ofEnded false l.whole = l := hrest l (by simp)
    rw [← hl, ofEnded]
    split <;> rfl

end Line

namespace Located

theorem find_precede {t : Text} {l : Located} (h : find t = .ok l) :
    ∃ line lines l', Line.ofText t = line :: lines ∧ l = precede line.whole l' := by
  unfold find at h
  cases hlines : Line.ofText t with
  | nil => rw [hlines] at h; cases h
  | cons line lines =>
    rw [hlines, findContext] at h
    split at h
    · split at h
      · obtain ⟨l', -, hl⟩ := map_precede_eq_ok h
        exact ⟨line, lines, l', rfl, hl⟩
      · cases h
    · obtain ⟨l', -, hl⟩ := map_precede_eq_ok h
      exact ⟨line, lines, l', rfl, hl⟩

end Located

namespace Trace

variable {t : Text} {p : Trace}

theorem above_ne_nil (hp : Through (Line.ofText t) p) (h : Located.find t = .ok p.located) :
    p.above ≠ [] := by
  intro hnil
  obtain ⟨line, lines, l', hlines, hl⟩ := Located.find_precede h
  obtain ⟨hcut, -, hspells, -⟩ := Scalar.scan_eq_ok hp.scalar
  obtain ⟨c, u, htoken, -⟩ := hspells.eq_cons
  have hline : line = p.line := by
    rw [hp.lines, hnil] at hlines
    exact (List.cons.inj hlines).1.symm
  have hbefore := congrArg (fun l => l.before.length) hl
  have htext := congrArg List.length (hp.text.trans (by rw [hcut]))
  simp only [located, hnil, hline, Located.precede, Line.whole, List.map_nil, List.flatten_nil,
    List.length_append, Line.length_take_indent, List.length_nil, htoken,
    List.length_cons] at hbefore htext
  rw [← Line.indent] at htext
  omega

theorem feed_not_mem (hp : Through (Line.ofText t) p) : '\n' ∉ p.line.text.take p.line.indent ++
    (p.field.head ++ (p.scalar.gap ++ p.scalar.token ++ p.scalar.after)) := by
  have hmem : p.line ∈ Line.ofText t := by simp [hp.lines]
  obtain ⟨hcut, -⟩ := Scalar.scan_eq_ok hp.scalar
  rw [← hcut, p.line.take_indent, ← hp.text]
  exact fun hfeed => Line.feed_not_mem hmem (List.mem_append_right _ hfeed)

theorem above_ended (hp : Through (Line.ofText t) p) :
    ∃ ls : List Text, p.above.map Line.whole = ls.map (· ++ ['\n']) ∧ ∀ l ∈ ls, '\n' ∉ l := by
  have hlines : Text.endedLines t =
      p.above.map Line.whole ++ p.line.whole :: p.below.map Line.whole := by
    rw [← Line.map_whole_ofText, hp.lines, List.map_append, List.map_cons]
  exact Text.endedLines_above hlines

theorem opensVersion (hp : Through (Line.ofText t) p) : Frame.OpensVersion
    (p.line.text.take p.line.indent ++ p.field.head ++ p.scalar.gap) := by
  obtain ⟨key, hhead, hkey⟩ := Field.spellsVersion hp.field hp.key
  obtain ⟨-, hgap, -⟩ := Scalar.scan_eq_ok hp.scalar
  refine ⟨p.line.text.take p.line.indent, key, p.scalar.gap, by simp [hhead], ?_, hkey, ?_, hgap⟩
  · intro c hc
    rw [p.line.take_indent] at hc
    simpa using List.all_eq_true.mp List.all_takeWhile c hc
  · intro hnil
    have hcolon := hp.atGap [':']
    rw [hnil] at hcolon
    cases hcolon

end Trace

namespace Located

/-- What stands around the token that is found is a frame of the version. -/
theorem find_frame {t : Text} {l : Located} (h : find t = .ok l) :
    ∃ f : Frame, f.IsVersion ∧ l.before = f.before ∧ l.after = f.after ∧ '\n' ∉ l.token := by
  obtain ⟨p, hp, rfl⟩ := find_eq_ok h
  have habove := Trace.above_ne_nil hp h
  have hmark := Line.mark_of_above hp.lines habove
  obtain ⟨-, -, -, hnoise, -⟩ := Scalar.scan_eq_ok hp.scalar
  have hlines : Text.endedLines t = p.above.map Line.whole ++
      (p.line.mark ++ p.line.text ++ p.line.ending) :: p.below.map Line.whole := by
    rw [← Line.map_whole_ofText, hp.lines, List.map_append, List.map_cons]
    rfl
  obtain ⟨ls, hls, hbroken⟩ := Trace.above_ended hp
  have hmem : p.line ∈ Line.ofText t := by simp [hp.lines]
  obtain ⟨r, ls', hbelow, hr, hbroken'⟩ := Text.endedLines_below hlines
    (Line.feed_not_mem hmem) (Line.ending_of_ofText hp.lines).1
  have hne : ls ≠ [] := by
    rintro rfl
    exact habove (List.map_eq_nil_iff.mp hls)
  have htext := Trace.feed_not_mem hp
  simp only [List.mem_append, not_or] at htext
  obtain ⟨hspaces, hhead, ⟨hgap, htoken⟩, hafter⟩ := htext
  have hreturn : '\n' ∉ r := by rcases hr with rfl | rfl <;> decide
  refine ⟨⟨ls, p.line.text.take p.line.indent ++ p.field.head ++ p.scalar.gap,
    p.scalar.after ++ r, ls'⟩, ⟨⟨hne, hbroken⟩, ⟨Trace.opensVersion hp, ?_⟩,
    ⟨Scalar.closesLine hnoise hr, ?_⟩, hbroken'⟩, ?_, ?_, htoken⟩
  · simp [hspaces, hhead, hgap]
  · simp [hafter, hreturn]
  · simp [Trace.located, Frame.before, hls, hmark]
  · simp only [Trace.located, Frame.after, List.append_assoc, hbelow]

end Located

namespace Manifest

/-- A rewrite fills the place of the version in a frame of the old text: the new token has the
style of the old one, every other byte and every other line stays as it was. -/
theorem frame_of_rewrite {source : Text} {v : Triple} {m new : Manifest}
    (hload : load source = .ok m) (hrewrite : m.rewrite v.dotted = .ok new) :
    ∃ (style : Style) (f : Frame), f.IsVersion ∧
      source = f.before ++ style.written m.version ++ f.after ∧
      new.source = f.before ++ style.written v.dotted ++ f.after ∧
      Text.splitAt '\n' source =
        f.above ++ (f.opening ++ style.written m.version ++ f.closing) :: f.below ∧
      Text.splitAt '\n' new.source =
        f.above ++ (f.opening ++ style.written v.dotted ++ f.closing) :: f.below := by
  obtain ⟨l, hfind, hvalue, hsource, -, -⟩ := rewriteWith_eq_ok hrewrite
  obtain rfl := source_of_load hload
  obtain ⟨happend, hspells⟩ := Located.find_append hfind
  obtain ⟨f, hf, hbefore, hafter, hfeed⟩ := Located.find_frame hfind
  have htoken : l.token = l.style.written m.version := hvalue ▸ hspells.eq_written
  have hfeed' : '\n' ∉ l.style.written v.dotted := by
    rw [← l.style.encode_dotted v]
    exact v.not_mem_encode _ (by decide) (by decide) (by decide) (by decide)
  rw [hbefore, hafter, htoken] at happend
  rw [hbefore, hafter, l.style.encode_dotted v] at hsource
  refine ⟨l.style, f, hf, happend.symm, hsource, ?_, ?_⟩
  · rw [← happend]
    exact Frame.splitAt_filled hf (htoken ▸ hfeed)
  · rw [hsource]
    exact Frame.splitAt_filled hf hfeed'

set_option maxRecDepth 10000 in
/-- A byte order mark, carriage returns, a key in quotes and a comment stay as they are. -/
theorem frame_of_rewrite_commented :
    let source := "\uFEFFcontext:\r\n  'version' : '1.2'\t# it's out\r\n  b: 1".toList
    let new : Manifest :=
      ⟨"\uFEFFcontext:\r\n  'version' : '1.3.0'\t# it's out\r\n  b: 1".toList, "1.3.0".toList⟩
    load source = .ok ⟨source, "1.2".toList⟩ ∧
      rewrite "1.3.0".toList ⟨source, "1.2".toList⟩ = .ok new ∧
      ∃ (style : Style) (f : Frame), f.IsVersion ∧
        source = f.before ++ style.written "1.2".toList ++ f.after ∧
        new.source = f.before ++ style.written "1.3.0".toList ++ f.after ∧
        Text.splitAt '\n' source =
          f.above ++ (f.opening ++ style.written "1.2".toList ++ f.closing) :: f.below ∧
        Text.splitAt '\n' new.source =
          f.above ++ (f.opening ++ style.written "1.3.0".toList ++ f.closing) :: f.below := by
  intro source new
  have hload : load source = .ok ⟨source, "1.2".toList⟩ := eq_ok_of_toOption (by decide +kernel)
  have hrewrite : rewrite "1.3.0".toList ⟨source, "1.2".toList⟩ = .ok new :=
    eq_ok_of_toOption (by decide +kernel)
  exact ⟨hload, hrewrite, frame_of_rewrite (v := ⟨1, 3, 0⟩) hload hrewrite⟩

end Manifest
end VersionDrift
