import VersionDrift.Proofs.Manifest.Framed

/-!
# The section of the version

What the search for the version does line by line is a selection from all lines at once.
The first field `context` without indentation heads a section, which holds the significant
lines below it up to the next one without indentation. Its level is the indentation of its
first line, and the version is on the first of its lines at that level that has the field
`version`. All other lines have no part in what is found, apart from where they let the
section begin and end.
-/

set_option autoImplicit false

namespace VersionDrift

def Field.ofLine? (line : Text) : Option Field :=
  ofText? (line.drop (line.takeWhile (· = ' ')).length)

/-- A line between the lines above and below it. -/
structure Site where
  above : List Line
  line : Line
  below : List Line

namespace Site

def under (l : Line) (s : Site) : Site := { s with above := l :: s.above }

def all : List Line → List Site
  | [] => []
  | l :: ls => ⟨[], l, ls⟩ :: (all ls).map (under l)

def ofText (t : Text) : List Site := all (Line.ofText t)

def field? (s : Site) : Option Field := Field.ofLine? s.line.text

def hasKey (key : Text) (s : Site) : Bool := s.field?.any (·.key = key)

def isOpen (s : Site) : Bool := s.field?.any (Scalar.isNoise ·.rest)

def found (s : Site) : Except Unlocated Located :=
  match s.field? with
  | none => .error .noVersionLine
  | some f => (Located.ofField s.line f s.below).map
      (Located.precede (s.above.map Line.whole).flatten)

def heading? (ss : List Site) : Option Site := ss.find? (·.line.hasField contextKey 0)

def toMargin (ss : List Site) : List Site :=
  (ss.filter (·.line.isSignificant)).takeWhile (·.line.indent ≠ 0)

/-- The lines of the section below the heading. -/
def contents (ss : List Site) : List Site :=
  toMargin (ss.dropWhile (!·.line.hasField contextKey 0)).tail

/-- The lines at the level, which is that of the first line unless it is known. -/
def atLevel (known : Option Nat) (ss : List Site) : List Site :=
  ss.filter fun s => some s.line.indent = known.or (ss.head?.map (·.line.indent))

def fields (ss : List Site) : List Site := atLevel none (contents ss)

def version? (ss : List Site) : Option Site := (fields ss).find? (hasKey versionKey)

/-- The version of a text, selected from all its lines at once. -/
def selected (ss : List Site) : Except Unlocated Located :=
  match heading? ss with
  | none => .error .noVersionLine
  | some c =>
    if c.isOpen then (version? ss).elim (.error .noVersionLine) found else .error .notBlockMapping

variable {ls : List Line} {ss : List Site}

theorem mem_all {s : Site} (h : s ∈ all ls) : ls = s.above ++ s.line :: s.below := by
  induction ls generalizing s with
  | nil => cases h
  | cons l ls ih =>
    rcases List.mem_cons.mp h with rfl | h
    · rfl
    · obtain ⟨s, hs, rfl⟩ := List.mem_map.mp h
      rw [ih hs]
      rfl

theorem found_under (l : Line) (s : Site) :
    (under l s).found = s.found.map (Located.precede l.whole) := by
  unfold found
  have hfield : (under l s).field? = s.field? := rfl
  rw [hfield]
  cases s.field? with
  | none => rfl
  | some f =>
    dsimp only [under]
    cases Located.ofField s.line f s.below with
    | error why => rfl
    | ok found => simp [Located.precede]

theorem elim_found_under (l : Line) (s? : Option Site) :
    (s?.map (under l)).elim (.error .noVersionLine) found =
      (s?.elim (.error .noVersionLine) found).map (Located.precede l.whole) := by
  cases s? with
  | none => rfl
  | some s => exact found_under l s

section

variable (l : Line) (ss : List Site)

@[simp] theorem toMargin_under : toMargin (ss.map (under l)) = (toMargin ss).map (under l) := by
  rw [toMargin, List.filter_map, List.takeWhile_map]
  rfl

@[simp] theorem atLevel_under (known : Option Nat) :
    atLevel known (ss.map (under l)) = (atLevel known ss).map (under l) := by
  rw [atLevel, List.filter_map, List.head?_map, Option.map_map]
  rfl

@[simp] theorem contents_under : contents (ss.map (under l)) = (contents ss).map (under l) := by
  rw [contents, List.dropWhile_map, ← List.map_tail, toMargin_under]
  rfl

theorem heading?_under : heading? (ss.map (under l)) = (heading? ss).map (under l) := by
  rw [heading?, List.find?_map]
  rfl

end

theorem find?_atLevel_cons (known : Option Nat) (s : Site) (ss : List Site) :
    (atLevel known (s :: ss)).find? (hasKey versionKey) =
      if s.line.indent = known.getD s.line.indent ∧ s.hasKey versionKey = true then some s
      else (atLevel (some (known.getD s.line.indent)) ss).find? (hasKey versionKey) := by
  have hlevel : known.or (some s.line.indent) = some (known.getD s.line.indent) := by
    cases known <;> rfl
  simp only [atLevel, List.head?_cons, Option.map_some, hlevel, List.filter_cons, Option.some_or,
    Option.some.injEq, decide_eq_true_eq]
  by_cases hindent : s.line.indent = known.getD s.line.indent
  · rw [if_pos hindent, List.find?_cons]
    cases s.hasKey versionKey with
    | true => exact (if_pos ⟨hindent, rfl⟩).symm
    | false => exact (if_neg (by simp)).symm
  · rw [if_neg hindent, if_neg fun h => hindent h.1]

theorem findVersion_eq (known : Option Nat) (ls : List Line) : Located.findVersion known ls =
    ((atLevel known (toMargin (all ls))).find? (hasKey versionKey)).elim
      (.error .noVersionLine) found := by
  induction ls generalizing known with
  | nil => rfl
  | cons l ls ih =>
    have hall : all (l :: ls) = ⟨[], l, ls⟩ :: (all ls).map (under l) := rfl
    by_cases hline : l.isSignificant = true
    · by_cases hindent : l.indent = 0
      · have hnil : toMargin (all (l :: ls)) = [] := by
          simp [hall, toMargin, hline, hindent]
        rw [hnil, Located.findVersion_of_margin hline hindent]
        rfl
      · have hcons : toMargin (all (l :: ls)) =
            ⟨[], l, ls⟩ :: (toMargin (all ls)).map (under l) := by
          rw [← toMargin_under, hall, toMargin, List.filter_cons_of_pos (by simpa using hline),
            List.takeWhile_cons_of_pos (by simpa using hindent)]
          rfl
        rw [hcons, find?_atLevel_cons]
        cases hfield : l.hasField versionKey (known.getD l.indent) with
        | true =>
          obtain ⟨f, hf, hkey, hfind⟩ := Located.findVersion_of_hasField hindent hfield
          obtain ⟨-, hlevel, -⟩ := Line.hasField_eq_true.mp hfield
          have hfield? : (Site.mk [] l ls).field? = some f := hf
          rw [if_pos ⟨hlevel, by simp [hasKey, hfield?, hkey]⟩, hfind]
          cases hfound : Located.ofField l f ls with
          | error why => simp [found, hfield?, hfound]
          | ok found => simp [Site.found, hfield?, hfound, Located.precede]
        | false =>
          have hother : ¬ (l.indent = known.getD l.indent ∧
              (Site.mk [] l ls).hasKey versionKey = true) := by
            have hkey : l.hasField versionKey (known.getD l.indent) = (l.isSignificant &&
                decide (l.indent = known.getD l.indent) &&
                (Site.mk [] l ls).hasKey versionKey) := rfl
            simpa [hkey, hline] using hfield
          rw [Located.findVersion_of_other hline hindent hfield, ih, if_neg hother, atLevel_under,
            List.find?_map, ← elim_found_under]
          rfl
    · rw [Bool.not_eq_true] at hline
      have hskip : toMargin (all (l :: ls)) = (toMargin (all ls)).map (under l) := by
        rw [← toMargin_under, hall, toMargin, List.filter_cons_of_neg (by simp [hline])]
        rfl
      rw [Located.findVersion_of_insignificant hline, ih, hskip, atLevel_under, List.find?_map,
        ← elim_found_under]
      rfl

/-- The search is the selection. -/
theorem findContext_eq (ls : List Line) : Located.findContext ls = selected (all ls) := by
  induction ls with
  | nil => rfl
  | cons l ls ih =>
    have hall : all (l :: ls) = ⟨[], l, ls⟩ :: (all ls).map (under l) := rfl
    cases hfield : l.hasField contextKey 0 with
    | true =>
      obtain ⟨-, hindent, f, hf, -⟩ := Line.hasField_eq_true.mp hfield
      have hfield? : (Site.mk [] l ls).field? = some f := hf
      rw [hindent, List.drop_zero] at hf
      have hheading : heading? (all (l :: ls)) = some ⟨[], l, ls⟩ := by
        simp [hall, heading?, hfield]
      have hcontents : contents (all (l :: ls)) = (toMargin (all ls)).map (under l) := by
        rw [← toMargin_under, hall, contents, List.dropWhile_cons_of_neg (by simp [hfield])]
        rfl
      rw [Located.findContext_of_hasField hfield hf, selected, hheading, version?, fields,
        hcontents, atLevel_under, List.find?_map, findVersion_eq]
      simp only [isOpen, hfield?, Option.any_some]
      split
      · rw [← elim_found_under]
        rfl
      · rfl
    | false =>
      have hheading : heading? (all (l :: ls)) = (heading? (all ls)).map (under l) := by
        rw [← heading?_under, hall, heading?, List.find?_cons_of_neg (by simp [hfield])]
        rfl
      have hcontents : contents (all (l :: ls)) = (contents (all ls)).map (under l) := by
        rw [← contents_under, hall, contents, List.dropWhile_cons_of_pos (by simp [hfield])]
        rfl
      rw [Located.findContext_of_other hfield, ih, selected, selected, hheading, version?, version?,
        fields, fields, hcontents, atLevel_under, List.find?_map]
      cases heading? (all ls) with
      | none => rfl
      | some c =>
        have hopen : (under l c).isOpen = c.isOpen := rfl
        simp only [Option.map_some, hopen]
        split
        · exact (elim_found_under l _).symm
        · rfl

theorem found_eq_ok_iff {s : Site} {l : Located} : s.found = .ok l ↔
    ∃ f c, s.field? = some f ∧ Scalar.scan f.rest = .ok c ∧
      l = (Trace.mk s.above s.line s.below f c).located := by
  unfold found
  cases s.field? with
  | none => simp
  | some f =>
    cases hscan : Scalar.scan f.rest with
    | error form => simp [Located.ofField, hscan]
    | ok c => simp [Located.ofField, hscan, Located.precede, Trace.located, eq_comm]

theorem mem_of_mem_fields {s : Site} (h : s ∈ fields ss) : s ∈ ss := by
  have hcontents : s ∈ contents ss := (List.mem_filter.mp h).1
  have hbelow := (List.mem_filter.mp ((List.takeWhile_sublist _).subset hcontents)).1
  exact (List.dropWhile_sublist _).subset (List.mem_of_mem_tail hbelow)

theorem through_of_version? {t : Text} {p : Trace}
    (h : version? (ofText t) = some ⟨p.above, p.line, p.below⟩)
    (hfield : Field.ofLine? p.line.text = some p.field)
    (hscan : Scalar.scan p.field.rest = .ok p.scalar) : p.Through (Line.ofText t) := by
  have hkey : (Site.mk p.above p.line p.below).hasKey versionKey = true := List.find?_some h
  refine ⟨mem_all (mem_of_mem_fields (List.mem_of_find?_eq_some h)), hfield, ?_, hscan⟩
  simpa [hasKey, field?, hfield] using hkey

end Site

namespace Located

def onLine (l : Located) : Option Text × Text × Style × Text :=
  ((Text.splitAt '\n' l.before).getLast?, l.token, l.style, l.value)

theorem onLine_located {t : Text} {p : Trace} (hp : p.Through (Line.ofText t))
    (h : find t = .ok p.located) : p.located.onLine =
      (some (p.line.text.take p.line.indent ++ p.field.head ++ p.scalar.gap), p.scalar.token,
        p.scalar.style, p.scalar.value) := by
  have hmark := Line.mark_of_above hp.lines (Trace.above_ne_nil hp h)
  obtain ⟨ls, hls, hbroken⟩ := Trace.above_ended hp
  have hfeed : '\n' ∉ p.line.text.take p.line.indent ++ p.field.head ++ p.scalar.gap := by
    have htext := Trace.feed_not_mem hp
    simp only [List.mem_append, not_or] at htext ⊢
    exact ⟨⟨htext.1, htext.2.1⟩, htext.2.2.1.1⟩
  have hbefore : p.located.before = (ls.map (· ++ ['\n'])).flatten ++
      (p.line.text.take p.line.indent ++ p.field.head ++ p.scalar.gap) := by
    simp [Trace.located, hls, hmark]
  rw [onLine, hbefore, Text.splitAt_ended hbroken, Text.splitAt_of_not_mem hfeed,
    List.getLast?_concat]
  rfl

open Site (heading? version? fields selected found)

/-- The search succeeds exactly where the section of the first field `context`, which has to be
open, has the field `version` at its level with a scalar that can be scanned, and it finds the first
of them. -/
theorem find_eq_ok_iff_version? {t : Text} {l : Located} : find t = .ok l ↔
    ∃ (c : Site) (p : Trace), heading? (Site.ofText t) = some c ∧ c.isOpen = true ∧
      version? (Site.ofText t) = some ⟨p.above, p.line, p.below⟩ ∧
      Field.ofLine? p.line.text = some p.field ∧ Scalar.scan p.field.rest = .ok p.scalar ∧
      l = p.located := by
  rw [find, Site.findContext_eq, ← Site.ofText, selected]
  constructor
  · intro h
    split at h
    · cases h
    next c hc =>
    split at h
    · next hopen =>
      cases hs : version? (Site.ofText t) with
      | none => rw [hs] at h; cases h
      | some s =>
        rw [hs] at h
        obtain ⟨f, c', hf, hscan, rfl⟩ := Site.found_eq_ok_iff.mp h
        exact ⟨c, ⟨s.above, s.line, s.below, f, c'⟩, hc, hopen, rfl, hf, hscan, rfl⟩
    · cases h
  · rintro ⟨c, p, hc, hopen, hs, hf, hscan, rfl⟩
    rw [hc]
    dsimp only
    rw [if_pos hopen, hs]
    exact Site.found_eq_ok_iff.mpr ⟨p.field, p.scalar, hf, hscan, rfl⟩

def scanLine (line : Text) : Except Unlocated (Option Text × Text × Style × Text) :=
  match Field.ofLine? line with
  | none => .error .noVersionLine
  | some f =>
    match Scalar.scan f.rest with
    | .error form => .error (.unsupported form)
    | .ok c =>
      .ok (some (line.takeWhile (· = ' ') ++ f.head ++ c.gap), c.token, c.style, c.value)

def scanFields (heading : Option Bool) (lines : List Text) :
    Except Unlocated (Option Text × Text × Style × Text) :=
  match heading with
  | none => .error .noVersionLine
  | some false => .error .notBlockMapping
  | some true =>
    (lines.find? fun line => (Field.ofLine? line).any (·.key = versionKey)).elim
      (.error .noVersionLine) scanLine

theorem onLine_found {t : Text} {s : Site} (hs : version? (Site.ofText t) = some s)
    (h : find t = s.found) : (find t).map onLine = scanLine s.line.text := by
  cases hf : Field.ofLine? s.line.text with
  | none => simp [h, found, Site.field?, scanLine, hf]
  | some f =>
    cases hscan : Scalar.scan f.rest with
    | error form => simp [h, found, Site.field?, scanLine, hf, ofField, hscan]
    | ok c =>
      have hfound := h.trans (Site.found_eq_ok_iff.mpr ⟨f, c, hf, hscan, rfl⟩)
      have hp := Site.through_of_version? (p := ⟨s.above, s.line, s.below, f, c⟩) hs hf hscan
      rw [hfound, Except.map, onLine_located hp hfound, s.line.take_indent, scanLine, hf]
      dsimp only
      rw [hscan]

theorem map_onLine_find (t : Text) : (find t).map onLine =
    scanFields ((heading? (Site.ofText t)).map Site.isOpen)
      ((fields (Site.ofText t)).map (·.line.text)) := by
  have hfind : find t = selected (Site.ofText t) := Site.findContext_eq (Line.ofText t)
  unfold selected at hfind
  cases hc : heading? (Site.ofText t) with
  | none => simp [hfind, hc, scanFields]
  | some c =>
    cases hopen : c.isOpen with
    | false => simp [hfind, hc, hopen, scanFields]
    | true =>
      rw [hc] at hfind
      dsimp only at hfind
      rw [if_pos hopen] at hfind
      rw [Option.map_some, hopen, scanFields, List.find?_map]
      change _ = ((version? (Site.ofText t)).map (·.line.text)).elim _ _
      cases hs : version? (Site.ofText t) with
      | none =>
        rw [hfind, hs]
        rfl
      | some s =>
        rw [hs] at hfind
        exact onLine_found hs hfind

/-- The search for the version is the selection from all lines at once. It succeeds exactly where
the first field `context` is open and its section has a field `version` at its level with a scalar
that can be scanned, and it finds the first of them; nothing else of the text has a part in it. -/
theorem find_selects (t : Text) :
    find t = selected (Site.ofText t) ∧
    (∀ l, find t = .ok l ↔ ∃ (c : Site) (p : Trace), heading? (Site.ofText t) = some c ∧
      c.isOpen = true ∧ version? (Site.ofText t) = some ⟨p.above, p.line, p.below⟩ ∧
      Field.ofLine? p.line.text = some p.field ∧ Scalar.scan p.field.rest = .ok p.scalar ∧
      l = p.located) ∧
    ∀ t', (heading? (Site.ofText t)).map Site.isOpen =
        (heading? (Site.ofText t')).map Site.isOpen →
      (fields (Site.ofText t)).map (·.line.text) = (fields (Site.ofText t')).map (·.line.text) →
      (find t).map onLine = (find t').map onLine := by
  refine ⟨Site.findContext_eq (Line.ofText t), fun l => find_eq_ok_iff_version?,
    fun t' hopen hfields => ?_⟩
  rw [map_onLine_find, map_onLine_find, hopen, hfields]

theorem find_selects_amid_other_lines :
    let t := "a: 1\ncontext: # c\n  b: 2\n    version: 9\n  version: 1.2 # x\nversion: 3\n".toList
    let t' := "\uFEFF'context' :\r\n  b: 2\n # y\n   version: 8\r\n  version: 1.2 # x".toList
    (heading? (Site.ofText t)).map Site.isOpen = (heading? (Site.ofText t')).map Site.isOpen ∧
      (fields (Site.ofText t)).map (·.line.text) = (fields (Site.ofText t')).map (·.line.text) ∧
      (find t).map onLine = (find t').map onLine ∧
      (find t').map onLine =
        .ok (some "  version: ".toList, "1.2".toList, .plain, "1.2".toList) := by
  intro t t'
  have hopen : (heading? (Site.ofText t)).map Site.isOpen =
      (heading? (Site.ofText t')).map Site.isOpen := by decide +kernel
  have hfields : (fields (Site.ofText t)).map (·.line.text) =
      (fields (Site.ofText t')).map (·.line.text) := by decide +kernel
  exact ⟨hopen, hfields, (find_selects t).2.2 t' hopen hfields,
    eq_ok_of_toOption (by decide +kernel)⟩

end Located
end VersionDrift
