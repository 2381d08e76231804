import VersionDrift.Manifest.Located
import VersionDrift.Proofs.Manifest.Scalar
import VersionDrift.Proofs.Text.Line

/-!
# Where the version is found

The lines of a text add up to it. `Trace` keeps what the search for the version went
by: the line, the field on it and the scalar of the field. The place that is found is
the one of that scalar, so text before, token and text after add up to the text. `InSight`
says for the lines above whether the search gets past them.
-/

set_option autoImplicit false

namespace VersionDrift

namespace Line

@[simp] theorem ending_ofEnded (first : Bool) (ended : Text) :
    (ofEnded first ended).ending = Text.lineEnding ended := by
  simp only [ofEnded]
  split
  · split <;> rfl
  · rfl

@[simp] theorem body_ofEnded (first : Bool) (ended : Text) :
    (ofEnded first ended).mark ++ (ofEnded first ended).text = Text.lineBody ended := by
  simp only [ofEnded]
  split
  · next c t hbody =>
    split
    · exact hbody.symm
    · rw [hbody]; rfl
  · next hbody => rw [hbody]; rfl

@[simp]
theorem whole_ofEnded (first : Bool) (ended : Text) : (ofEnded first ended).whole = ended := by
  rw [whole, body_ofEnded, ending_ofEnded, (Text.lineBody_lineEnding ended).1]

theorem ofText_flatten (t : Text) : ((ofText t).map whole).flatten = t := by
  unfold ofText
  cases h : Text.endedLines t with
  | nil => rw [← Text.endedLines_flatten t, h]; rfl
  | cons l ls =>
    have hwhole : (ls.map (ofEnded false)).map whole = ls := by
      simp [List.map_map, Function.comp_def]
    rw [List.map_cons, hwhole, whole_ofEnded, ← h, Text.endedLines_flatten]

theorem map_whole_ofText (t : Text) : (ofText t).map whole = Text.endedLines t := by
  unfold ofText
  cases h : Text.endedLines t with
  | nil => rfl
  | cons l ls => simp [List.map_map, Function.comp_def]

theorem ending_eq_of_mem {t : Text} {line : Line} (h : line ∈ ofText t) :
    line.ending = Text.lineEnding line.whole := by
  unfold ofText at h
  split at h
  · cases h
  · rcases List.mem_cons.mp h with rfl | h
    · rw [ending_ofEnded, whole_ofEnded]
    · obtain ⟨l, -, rfl⟩ := List.mem_map.mp h
      rw [ending_ofEnded, whole_ofEnded]

theorem ending_of_ofText {t : Text} {line : Line} {above below : List Line}
    (h : ofText t = above ++ line :: below) :
    Text.IsEnding line.ending ∧ (below ≠ [] → line.ending ≠ []) := by
  have hmem : line ∈ ofText t := by rw [h]; simp
  obtain ⟨-, hending, hlast, -⟩ := Text.lineBody_lineEnding line.whole
  rw [ending_eq_of_mem hmem]
  refine ⟨hending, fun hbelow => hlast ?_⟩
  have hlines := map_whole_ofText t
  rw [h, List.map_append, List.map_cons] at hlines
  exact Text.endedLines_getLast hlines.symm (by simpa using hbelow)

end Line

namespace Field

theorem untilColon_eq_some {t key rest : Text} (h : untilColon t = some (key, rest)) :
    t = key ++ ':' :: rest ∧ atGap rest = true := by
  induction t generalizing key with
  | nil => cases h
  | cons c t ih =>
    unfold untilColon at h
    split at h
    · next hc =>
      obtain ⟨rfl, rfl⟩ := Prod.mk.inj (Option.some.inj h)
      obtain ⟨hcolon, hgap⟩ : c = ':' ∧ atGap t = true := by simpa using hc
      exact ⟨by rw [hcolon]; rfl, hgap⟩
    · obtain ⟨⟨k, r⟩, hk, heq⟩ := Option.map_eq_some_iff.mp h
      obtain ⟨rfl, rfl⟩ := Prod.mk.inj heq
      obtain ⟨ht, hgap⟩ := ih hk
      exact ⟨by rw [ht]; rfl, hgap⟩

theorem quoted?_eq_some {quote : Char} {t : Text} {f : Field} (h : quoted? quote t = some f) :
    quote :: t = f.head ++ f.rest ∧ (∃ k, f.head = k ++ [':']) ∧ atGap f.rest = true := by
  unfold quoted? at h
  dsimp only at h
  rw [Text.drop_length_takeWhile] at h
  split at h
  · cases h
  · next close r hclose =>
    rw [Text.drop_length_takeWhile] at h
    split at h
    · next rest hcolon =>
      split at h
      · next hgap =>
        obtain rfl := Option.some.inj h
        refine ⟨?_, ⟨quote :: t.takeWhile (· ≠ quote) ++ close :: r.takeWhile Text.isBlank, ?_⟩,
          hgap⟩
        · have hr : r = r.takeWhile Text.isBlank ++ ':' :: rest := by
            rw [← hcolon, List.takeWhile_append_dropWhile]
          have ht : t = t.takeWhile (· ≠ quote) ++ close :: r := by
            rw [← hclose, List.takeWhile_append_dropWhile]
          calc quote :: t = quote :: (t.takeWhile (· ≠ quote) ++ close :: r) := by rw [← ht]
            _ = quote :: (t.takeWhile (· ≠ quote) ++
                close :: (r.takeWhile Text.isBlank ++ ':' :: rest)) := by rw [← hr]
            _ = _ := by simp
        · simp
      · cases h
    · cases h

theorem ofText?_eq_some {t : Text} {f : Field} (h : ofText? t = some f) :
    t = f.head ++ f.rest ∧ (∃ k, f.head = k ++ [':']) ∧ atGap f.rest = true := by
  cases t with
  | nil => cases h
  | cons c t =>
    simp only [ofText?] at h
    split at h
    · exact quoted?_eq_some h
    · split at h
      · cases h
      · obtain ⟨⟨key, rest⟩, hk, rfl⟩ := Option.map_eq_some_iff.mp h
        obtain ⟨ht, hgap⟩ := untilColon_eq_some hk
        exact ⟨by rw [ht]; simp, ⟨key, rfl⟩, hgap⟩

theorem head_of_versionKey {t : Text} {f : Field} (h : ofText? t = some f)
    (hkey : f.key = versionKey) : ∃ c r, t = c :: r ∧ Text.isBlank c = false ∧ c ≠ '#' := by
  cases t with
  | nil => cases h
  | cons c t =>
    refine ⟨c, t, rfl, ?_⟩
    simp only [ofText?] at h
    split at h
    · next hquote =>
      simp only [Bool.or_eq_true, decide_eq_true_eq] at hquote
      rcases hquote with rfl | rfl <;> decide
    · split at h
      · cases h
      · obtain ⟨⟨key, rest⟩, hsplit, rfl⟩ := Option.map_eq_some_iff.mp h
        obtain ⟨ht, -⟩ := untilColon_eq_some hsplit
        obtain ⟨u, hu, -⟩ := Text.dropEndWhile_append Text.isBlank key
        have hversion : key = versionKey ++ u := by
          rw [← hkey]
          exact hu
        rw [hversion] at ht
        obtain rfl : c = 'v' := (List.cons.inj ht).1
        decide

end Field

/-- What the search for the version goes by: the line between the lines above and below, the field
on it and the scalar of the field. -/
structure Trace where
  above : List Line
  line : Line
  below : List Line
  field : Field
  scalar : Scalar

namespace Trace

def located (p : Trace) : Located where
  before := (p.above.map Line.whole).flatten ++ p.line.mark ++ p.line.text.take p.line.indent ++
    p.field.head ++ p.scalar.gap
  token := p.scalar.token
  after := p.scalar.after ++ p.line.ending ++ (p.below.map Line.whole).flatten
  style := p.scalar.style
  value := p.scalar.value

/-- The trace is one of a search through these lines. -/
structure Through (lines : List Line) (p : Trace) : Prop where
  lines : lines = p.above ++ p.line :: p.below
  field : Field.ofText? (p.line.text.drop p.line.indent) = some p.field
  key : p.field.key = versionKey
  scalar : Scalar.scan p.field.rest = .ok p.scalar

theorem Through.isSignificant {lines : List Line} {p : Trace} (h : Through lines p)
    (hindent : p.line.indent ≠ 0) : p.line.isSignificant = true := by
  obtain ⟨c, r, hfield, hblank, hcomment⟩ := Field.head_of_versionKey h.field h.key
  have hspaces (d : Char) (hd : d ∈ p.line.text.takeWhile (· = ' ')) : Text.isBlank d = true := by
    have hspace : d = ' ' := by simpa using List.all_eq_true.mp List.all_takeWhile d hd
    rw [hspace]
    rfl
  have htext : p.line.text = p.line.text.takeWhile (· = ' ') ++ c :: r := by
    rw [← hfield, Line.indent, Text.drop_length_takeWhile, List.takeWhile_append_dropWhile]
  have htrim : ∃ r', Text.trim p.line.text = c :: r' := by
    rw [Text.trim, Text.trimStart, htext, List.dropWhile_append_of_pos hspaces,
      List.dropWhile_cons_of_neg (by simp [hblank])]
    exact Text.dropEndWhile_cons hblank r
  obtain ⟨r', htrim⟩ := htrim
  simp [Line.isSignificant, htrim, hcomment, hindent]

theorem Through.whole {lines : List Line} {p : Trace} (h : Through lines p) :
    p.line.whole = p.line.mark ++ p.line.text.take p.line.indent ++ p.field.head ++
      p.scalar.gap ++ p.scalar.token ++ p.scalar.after ++ p.line.ending := by
  obtain ⟨hfield, -, -⟩ := Field.ofText?_eq_some h.field
  obtain ⟨hscalar, -⟩ := Scalar.scan_eq_ok h.scalar
  have hline : p.line.text.take p.line.indent ++ p.field.head ++ p.field.rest = p.line.text := by
    rw [List.append_assoc, ← hfield, List.take_append_drop]
  rw [hscalar] at hline
  rw [Line.whole]
  conv => lhs; rw [← hline]
  simp only [List.append_assoc]

theorem Through.precede {lines : List Line} {p : Trace} (h : Through lines p) (l : Line) :
    Through (l :: lines) { p with above := l :: p.above } :=
  ⟨by rw [h.lines]; rfl, h.field, h.key, h.scalar⟩

@[simp] theorem located_precede (p : Trace) (l : Line) :
    ({ p with above := l :: p.above } : Trace).located = p.located.precede l.whole := by
  simp [located, Located.precede]

theorem Through.above_eq {lines : List Line} {p q : Trace} (hp : Through lines p)
    (hq : Through lines q) (h : p.located = q.located) : p.above = q.above ∧ p.line = q.line := by
  have hbefore : p.located.before.length = q.located.before.length := by rw [h]
  have hpast {p q : Trace} (hp : Through lines p) {ls : List Line}
      (hq : q.above = p.above ++ p.line :: ls) :
      p.located.before.length < q.located.before.length := by
    obtain ⟨-, -, hspells, -⟩ := Scalar.scan_eq_ok hp.scalar
    obtain ⟨c, u, htoken, -⟩ := hspells.eq_cons
    simp only [located, hq, List.map_append, List.map_cons, List.flatten_append,
      List.flatten_cons, hp.whole, htoken, List.length_append, List.length_cons]
    omega
  rcases List.append_eq_append_iff.mp (hp.lines.symm.trans hq.lines) with
    ⟨us, hus, hcut⟩ | ⟨us, hus, hcut⟩
  · cases us with
    | nil => exact ⟨by simpa using hus.symm, (List.cons.inj hcut).1⟩
    | cons u us =>
      obtain ⟨rfl, -⟩ := List.cons.inj hcut
      have hlt := hpast hp hus
      omega
  · cases us with
    | nil => exact ⟨by simpa using hus, (List.cons.inj hcut).1.symm⟩
    | cons u us =>
      obtain ⟨rfl, -⟩ := List.cons.inj hcut
      have hlt := hpast hq hus
      omega

end Trace

namespace Line

def hasField (key : Text) (level : Nat) (l : Line) : Bool :=
  l.isSignificant && l.indent = level && (Field.ofText? (l.text.drop l.indent)).any (·.key = key)

theorem hasField_eq_true {key : Text} {level : Nat} {l : Line} : l.hasField key level = true ↔
    l.isSignificant = true ∧ l.indent = level ∧
      ∃ f, Field.ofText? (l.text.drop l.indent) = some f ∧ f.key = key := by
  simp [hasField, Option.any_eq_true, and_assoc]

theorem exists_field_of_hasField {key : Text} {l : Line} (h : l.hasField key 0 = true) :
    ∃ f, Field.ofText? l.text = some f := by
  obtain ⟨-, hindent, f, hf, -⟩ := hasField_eq_true.mp h
  rw [hindent, List.drop_zero] at hf
  exact ⟨f, hf⟩

end Line

/-- The lines stand before the field `version` at the level and below the one for `context`, and the
search passes over them; it may know the level before it comes to them. -/
structure Passed (known : Option Nat) (level : Nat) (lines : List Line) : Prop where
  indented : ∀ l ∈ lines, l.isSignificant = true → l.indent ≠ 0
  first : ∀ i ∈ known.or ((lines.find? (·.isSignificant)).map Line.indent), i = level
  other : ∀ l ∈ lines, l.hasField versionKey level = false

/-- Below these lines the field `version` at the level is in sight: among them stands the field
`context` without a value on its line, no such field above it, and the lines below are passed
over. -/
inductive InSight (level : Nat) : List Line → Prop
  | mk {above between : List Line} {heading : Line} {f : Field} (indented : level ≠ 0)
      (none_above : ∀ l ∈ above, l.hasField contextKey 0 = false)
      (heading_field : heading.hasField contextKey 0 = true)
      (field : Field.ofText? heading.text = some f) (noise : Scalar.isNoise f.rest = true)
      (passed : Passed none level between) : InSight level (above ++ heading :: between)

namespace Passed

variable {known : Option Nat} {level : Nat} {line : Line} {lines : List Line}

theorem cons_of_insignificant (hline : line.isSignificant = false) :
    Passed known level (line :: lines) ↔ Passed known level lines := by
  have hfield : line.hasField versionKey level = false := by simp [Line.hasField, hline]
  constructor
  · rintro ⟨hindented, hfirst, hother⟩
    rw [List.find?_cons_of_neg (by simp [hline])] at hfirst
    exact ⟨fun l hl => hindented l (List.mem_cons_of_mem _ hl), hfirst,
      fun l hl => hother l (List.mem_cons_of_mem _ hl)⟩
  · rintro ⟨hindented, hfirst, hother⟩
    refine ⟨List.forall_mem_cons.mpr ⟨by simp [hline], hindented⟩, ?_,
      List.forall_mem_cons.mpr ⟨hfield, hother⟩⟩
    rwa [List.find?_cons_of_neg (by simp [hline])]

theorem cons_of_isSignificant (hline : line.isSignificant = true) :
    Passed known level (line :: lines) ↔ line.indent ≠ 0 ∧ known.getD line.indent = level ∧
      line.hasField versionKey level = false ∧ Passed (some level) level lines := by
  have hknown : known.or (some line.indent) = some (known.getD line.indent) := by
    cases known <;> rfl
  constructor
  · rintro ⟨hindented, hfirst, hother⟩
    rw [List.find?_cons_of_pos hline, Option.map_some, hknown] at hfirst
    exact ⟨hindented line List.mem_cons_self hline, hfirst _ rfl, hother line List.mem_cons_self,
      fun l hl => hindented l (List.mem_cons_of_mem _ hl), by simp,
      fun l hl => hother l (List.mem_cons_of_mem _ hl)⟩
  · rintro ⟨hindent, hlevel, hfield, hindented, -, hother⟩
    refine ⟨List.forall_mem_cons.mpr ⟨fun _ => hindent, hindented⟩, ?_,
      List.forall_mem_cons.mpr ⟨hfield, hother⟩⟩
    rw [List.find?_cons_of_pos hline, Option.map_some, hknown]
    simpa using hlevel

end Passed

theorem Passed.inSight {level : Nat} {heading : Line} {f : Field} {lines : List Line}
    (h : Passed none level lines) (hlevel : level ≠ 0)
    (hheading : heading.hasField contextKey 0 = true)
    (hfield : Field.ofText? heading.text = some f) (hnoise : Scalar.isNoise f.rest = true) :
    InSight level (heading :: lines) := by
  have hnone : ∀ l ∈ ([] : List Line), l.hasField contextKey 0 = false := by simp
  exact .mk hlevel hnone hheading hfield hnoise h

theorem InSight.indented {level : Nat} {lines : List Line} (h : InSight level lines) :
    level ≠ 0 := by
  cases h with
  | mk indented => exact indented

theorem InSight.cons {level : Nat} {line : Line} {lines : List Line} (h : InSight level lines)
    (hline : line.hasField contextKey 0 = false) : InSight level (line :: lines) := by
  obtain ⟨hlevel, habove, hheading, hfield, hnoise, hpassed⟩ := h
  exact .mk hlevel (List.forall_mem_cons.mpr ⟨hline, habove⟩) hheading hfield hnoise hpassed

namespace Located

theorem map_precede_eq_ok {t : Text} {r : Except Unlocated Located} {l : Located}
    (h : r.map (precede t) = .ok l) : ∃ l', r = .ok l' ∧ l = precede t l' := by
  cases r with
  | error e => cases h
  | ok l' => exact ⟨l', rfl, (Except.ok.inj h).symm⟩

theorem ofField_eq_ok {line : Line} {f : Field} {below : List Line} {l : Located}
    (h : ofField line f below = .ok l) : ∃ s, Scalar.scan f.rest = .ok s ∧
      l = (Trace.mk [] line below f s).located := by
  unfold ofField at h
  split at h
  · cases h
  · next s hs => exact ⟨s, hs, by rw [← Except.ok.inj h]; simp [Trace.located]⟩

section

variable {known : Option Nat} {line : Line} {lines : List Line} {l : Located}

theorem findVersion_of_insignificant (hline : line.isSignificant = false) :
    findVersion known (line :: lines) = (findVersion known lines).map (precede line.whole) := by
  rw [findVersion, if_pos (by simp [hline])]

theorem findVersion_of_margin (hline : line.isSignificant = true) (hindent : line.indent = 0) :
    findVersion known (line :: lines) = .error .noVersionLine := by
  rw [findVersion, if_neg (by simp [hline]), if_pos hindent]

theorem findVersion_of_hasField (hindent : line.indent ≠ 0)
    (hfield : line.hasField versionKey (known.getD line.indent) = true) :
    ∃ f, Field.ofText? (line.text.drop line.indent) = some f ∧ f.key = versionKey ∧
      ∀ lines, findVersion known (line :: lines) = ofField line f lines := by
  obtain ⟨hline, hlevel, f, hf, hkey⟩ := Line.hasField_eq_true.mp hfield
  refine ⟨f, hf, hkey, fun lines => ?_⟩
  rw [findVersion, if_neg (by simp [hline]), if_neg hindent]
  dsimp only
  rw [if_pos hlevel, hf, Option.filter_some, if_pos (by simpa using hkey)]

theorem findVersion_of_other (hline : line.isSignificant = true) (hindent : line.indent ≠ 0)
    (hfield : line.hasField versionKey (known.getD line.indent) = false) :
    findVersion known (line :: lines) =
      (findVersion (some (known.getD line.indent)) lines).map (precede line.whole) := by
  have hnone : (if line.indent = known.getD line.indent then
      Field.ofText? (line.text.drop line.indent) else none).filter (·.key = versionKey) = none := by
    refine Option.eq_none_iff_forall_ne_some.mpr fun f hf => ?_
    obtain ⟨hsome, hkey⟩ := Option.filter_eq_some_iff.mp hf
    split at hsome
    · next hlevel =>
      have hthere := Line.hasField_eq_true.mpr ⟨hline, hlevel, f, hsome, by simpa using hkey⟩
      rw [hfield] at hthere
      cases hthere
    · cases hsome
  rw [findVersion, if_neg (by simp [hline]), if_neg hindent]
  dsimp only
  rw [hnone]

/-- Below lines that are passed over the search finds the scalar of the field. -/
theorem findVersion_of_passed {p : Trace} (hp : p.Through lines) (hindent : p.line.indent ≠ 0)
    (h : Passed known p.line.indent p.above) : findVersion known lines = .ok p.located := by
  obtain ⟨above, line, below, f, s⟩ := p
  obtain rfl : lines = above ++ line :: below := hp.lines
  have hline := hp.isSignificant hindent
  have hfield : Field.ofText? (line.text.drop line.indent) = some f := hp.field
  have hscalar : Scalar.scan f.rest = .ok s := hp.scalar
  dsimp only at hindent h hline
  induction above generalizing known with
  | nil =>
    have hlevel : known.getD line.indent = line.indent := by
      cases known with
      | none => rfl
      | some i => exact h.first i rfl
    have hthere : line.hasField versionKey (known.getD line.indent) = true :=
      Line.hasField_eq_true.mpr ⟨hline, hlevel.symm, f, hfield, hp.key⟩
    obtain ⟨f', hf', -, hfind⟩ := findVersion_of_hasField hindent hthere
    obtain rfl : f = f' := Option.some.inj (hfield.symm.trans hf')
    rw [List.nil_append, hfind, ofField, hscalar]
    simp [Trace.located]
  | cons first above ih =>
    have hrest : Trace.Through (above ++ line :: below) ⟨above, line, below, f, s⟩ :=
      ⟨rfl, hp.field, hp.key, hp.scalar⟩
    have hprecede := Trace.located_precede ⟨above, line, below, f, s⟩ first
    rw [List.cons_append]
    by_cases hfirst : first.isSignificant = true
    · obtain ⟨hindented, hlevel, hother, hpassed⟩ := (Passed.cons_of_isSignificant hfirst).mp h
      rw [findVersion_of_other hfirst hindented (by rw [hlevel]; exact hother), hlevel,
        ih hpassed hrest]
      exact congrArg Except.ok hprecede.symm
    · rw [Bool.not_eq_true] at hfirst
      rw [findVersion_of_insignificant hfirst,
        ih ((Passed.cons_of_insignificant hfirst).mp h) hrest]
      exact congrArg Except.ok hprecede.symm

theorem findVersion_eq_ok (h : findVersion known lines = .ok l) : ∃ p : Trace, p.Through lines ∧
    p.line.indent ≠ 0 ∧ Passed known p.line.indent p.above ∧ l = p.located := by
  induction lines generalizing known l with
  | nil => cases h
  | cons line lines ih =>
    by_cases hline : line.isSignificant = true
    · by_cases hindent : line.indent = 0
      · rw [findVersion_of_margin hline hindent] at h
        cases h
      by_cases hfield : line.hasField versionKey (known.getD line.indent) = true
      · obtain ⟨f, hf, hkey, hfind⟩ := findVersion_of_hasField hindent hfield
        obtain ⟨s, hs, rfl⟩ := ofField_eq_ok ((hfind lines).symm.trans h)
        obtain ⟨-, hlevel, -⟩ := Line.hasField_eq_true.mp hfield
        refine ⟨_, ⟨rfl, hf, hkey, hs⟩, hindent, ⟨by simp, ?_, by simp⟩, rfl⟩
        cases known with
        | none => simp
        | some i => simpa using hlevel.symm
      · rw [Bool.not_eq_true] at hfield
        rw [findVersion_of_other hline hindent hfield] at h
        obtain ⟨l', hl', rfl⟩ := map_precede_eq_ok h
        obtain ⟨p, hp, hpindent, hpassed, rfl⟩ := ih hl'
        have hlevel : known.getD line.indent = p.line.indent := hpassed.first _ rfl
        rw [hlevel] at hpassed hfield
        exact ⟨_, hp.precede line, hpindent,
          (Passed.cons_of_isSignificant hline).mpr ⟨hindent, hlevel, hfield, hpassed⟩,
          (p.located_precede line).symm⟩
    · rw [Bool.not_eq_true] at hline
      rw [findVersion_of_insignificant hline] at h
      obtain ⟨l', hl', rfl⟩ := map_precede_eq_ok h
      obtain ⟨p, hp, hpindent, hpassed, rfl⟩ := ih hl'
      exact ⟨_, hp.precede line, hpindent, (Passed.cons_of_insignificant hline).mpr hpassed,
        (p.located_precede line).symm⟩

theorem findContext_of_hasField {f : Field} (hfield : line.hasField contextKey 0 = true)
    (hf : Field.ofText? line.text = some f) : findContext (line :: lines) =
      if Scalar.isNoise f.rest then (findVersion none lines).map (precede line.whole)
      else .error .notBlockMapping := by
  obtain ⟨hline, hindent, f', hf', hkey⟩ := Line.hasField_eq_true.mp hfield
  rw [hindent, List.drop_zero, hf] at hf'
  obtain rfl := Option.some.inj hf'
  rw [findContext, if_pos (by simp [hline, hindent]), hf, Option.filter_some,
    if_pos (by simpa using hkey)]

theorem findContext_of_other (hfield : line.hasField contextKey 0 = false) :
    findContext (line :: lines) = (findContext lines).map (precede line.whole) := by
  have hnone : (if line.isSignificant && line.indent = 0 then Field.ofText? line.text
      else none).filter (·.key = contextKey) = none := by
    refine Option.eq_none_iff_forall_ne_some.mpr fun f hf => ?_
    obtain ⟨hsome, hkey⟩ := Option.filter_eq_some_iff.mp hf
    split at hsome
    · next htop =>
      obtain ⟨hline, hindent⟩ : line.isSignificant = true ∧ line.indent = 0 := by simpa using htop
      have hthere : line.hasField contextKey 0 = true := Line.hasField_eq_true.mpr
        ⟨hline, hindent, f, by rw [hindent, List.drop_zero, hsome], by simpa using hkey⟩
      rw [hfield] at hthere
      cases hthere
    · cases hsome
  rw [findContext, hnone]

theorem findContext_of_inSight {p : Trace} (hp : p.Through lines)
    (h : InSight p.line.indent p.above) : findContext lines = .ok p.located := by
  obtain ⟨all, line, below, f, s⟩ := p
  obtain rfl : lines = all ++ line :: below := hp.lines
  dsimp only at h
  obtain @⟨above, between, heading, f', hindent, habove, hheading, hf, hnoise, hpassed⟩ := h
  induction above with
  | nil =>
    have hversion := findVersion_of_passed (p := ⟨between, line, below, f, s⟩)
      ⟨rfl, hp.field, hp.key, hp.scalar⟩ hindent hpassed
    rw [List.nil_append, List.cons_append, findContext_of_hasField hheading hf, if_pos hnoise,
      hversion]
    exact congrArg Except.ok (Trace.located_precede ⟨between, line, below, f, s⟩ heading).symm
  | cons first above ih =>
    obtain ⟨hfirst, habove⟩ := List.forall_mem_cons.mp habove
    rw [List.cons_append, List.cons_append, findContext_of_other hfirst,
      ih habove ⟨rfl, hp.field, hp.key, hp.scalar⟩]
    exact congrArg Except.ok (Trace.located_precede ⟨_, line, below, f, s⟩ first).symm

theorem findContext_eq_ok (h : findContext lines = .ok l) : ∃ p : Trace, p.Through lines ∧
    InSight p.line.indent p.above ∧ l = p.located := by
  induction lines generalizing l with
  | nil => cases h
  | cons line lines ih =>
    by_cases hfield : line.hasField contextKey 0 = true
    · obtain ⟨f, hf⟩ := Line.exists_field_of_hasField hfield
      rw [findContext_of_hasField hfield hf] at h
      split at h
      · next hnoise =>
        obtain ⟨l', hl', rfl⟩ := map_precede_eq_ok h
        obtain ⟨p, hp, hpindent, hpassed, rfl⟩ := findVersion_eq_ok hl'
        exact ⟨_, hp.precede line, hpassed.inSight hpindent hfield hf hnoise,
          (p.located_precede line).symm⟩
      · cases h
    · rw [Bool.not_eq_true] at hfield
      rw [findContext_of_other hfield] at h
      obtain ⟨l', hl', rfl⟩ := map_precede_eq_ok h
      obtain ⟨p, hp, hsight, rfl⟩ := ih hl'
      exact ⟨_, hp.precede line, hsight.cons hfield, (p.located_precede line).symm⟩

end

/-- The search finds the scalar of the field that is in sight, and no other. -/
theorem find_eq_ok_iff {t : Text} {l : Located} : find t = .ok l ↔ ∃ p : Trace,
    p.Through (Line.ofText t) ∧ InSight p.line.indent p.above ∧ l = p.located := by
  constructor
  · exact findContext_eq_ok
  · rintro ⟨p, hp, hsight, rfl⟩
    exact findContext_of_inSight hp hsight

theorem find_eq_located_iff {t : Text} {p : Trace} (hp : p.Through (Line.ofText t)) :
    find t = .ok p.located ↔ InSight p.line.indent p.above := by
  constructor
  · intro h
    obtain ⟨q, hq, hsight, hlocated⟩ := find_eq_ok_iff.mp h
    obtain ⟨habove, hline⟩ := hp.above_eq hq hlocated
    rw [habove, hline]
    exact hsight
  · intro hsight
    exact find_eq_ok_iff.mpr ⟨p, hp, hsight, rfl⟩

theorem find_eq_ok {t : Text} {l : Located} (h : find t = .ok l) :
    ∃ p, Trace.Through (Line.ofText t) p ∧ l = p.located := by
  obtain ⟨p, hp, -, hl⟩ := find_eq_ok_iff.mp h
  exact ⟨p, hp, hl⟩

theorem find_append {t : Text} {l : Located} (h : find t = .ok l) :
    l.before ++ l.token ++ l.after = t ∧ l.style.Spells l.token l.value := by
  obtain ⟨p, hp, rfl⟩ := find_eq_ok h
  obtain ⟨-, -, hspells, -⟩ := Scalar.scan_eq_ok hp.scalar
  refine ⟨?_, hspells⟩
  calc _ = (p.above.map Line.whole).flatten ++ p.line.whole ++
        (p.below.map Line.whole).flatten := by
        rw [hp.whole]; simp only [Trace.located, List.append_assoc]
    _ = t := by
        rw [← Line.ofText_flatten t, hp.lines]; simp

end Located
end VersionDrift
