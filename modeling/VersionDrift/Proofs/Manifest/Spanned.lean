import VersionDrift.Proofs.Manifest.Cut
import VersionDrift.Proofs.Manifest.Framed

/-!
# The search by byte offsets

The search for the version may go by offsets: lines know where they start, what is looked at is
cut out of them, and the token that is found is a span of the text. On no text a cut fails. The
search finds what the one by characters finds, and the span is exactly the token.
-/

set_option autoImplicit false

namespace VersionDrift.Scanner

open Text (byteCount cut cutFrom)

/-- A line without its ending, and the offset at which it starts. -/
structure Stretch where
  start : Nat
  text : Text
deriving DecidableEq, Repr

def stretch (offset : Nat) (ended : Text) : Stretch :=
  match offset, Text.lineBody ended with
  | 0, '\uFEFF' :: t => ⟨Char.utf8Size '\uFEFF', t⟩
  | _, t => ⟨offset, t⟩

def stretchesFrom : (offset : Nat) → List Text → List Stretch
  | _, [] => []
  | offset, ended :: rest => stretch offset ended :: stretchesFrom (offset + byteCount ended) rest

def stretches (t : Text) : List Stretch := stretchesFrom 0 (Text.endedLines t)

namespace Stretch

def indent (l : Stretch) : Nat := byteCount l.text - byteCount (l.text.dropWhile (· = ' '))

def isSignificant (l : Stretch) : Bool :=
  let t := Text.trim l.text
  !(t.isEmpty || t.head? = some '#' ||
    (l.indent = 0 && (t = "---".toList || t = "...".toList)))

end Stretch

def locateFrom : (within : Bool) → (level : Option Nat) → List Stretch →
    Except Miscut (Except Unlocated Span)
  | _, _, [] => return .error .noVersionLine
  | within, level, l :: ls => do
    if !l.isSignificant then locateFrom within level ls
    else if l.indent = 0 then
      if within then return .error .noVersionLine
      else match (← splitKey l.text).filter (·.1 = contextKey) with
        | none => locateFrom within level ls
        | some (_, after) =>
          if Scalar.isNoise (← cutFrom after l.text) then locateFrom true level ls
          else return .error .notBlockMapping
    else if !within then locateFrom within level ls
    else
      let level := level.getD l.indent
      if l.indent ≠ level then locateFrom within (some level) ls
      else match (← splitKey (← cutFrom l.indent l.text)).filter (·.1 = versionKey) with
        | none => locateFrom within (some level) ls
        | some (_, after) =>
          scanScalar (← cutFrom (l.indent + after) l.text) (l.start + l.indent + after)

def locate (t : Text) : Except Miscut (Except Unlocated Span) :=
  locateFrom false none (stretches t)

def Span.ofLocated (offset : Nat) (l : Located) : Span :=
  ⟨offset + l.span.1, offset + l.span.2, l.style, l.value⟩

theorem Span.map_ofLocated_precede (offset : Nat) (t : Text) (r : Except Unlocated Located) :
    (r.map (Located.precede t)).map (Span.ofLocated offset) =
      r.map (Span.ofLocated (offset + byteCount t)) := by
  cases r with
  | error why => rfl
  | ok l =>
    simp [Span.ofLocated, Located.span, Located.precede, Nat.add_assoc]

def placed : (offset : Nat) → List Line → List Stretch
  | _, [] => []
  | offset, l :: ls => ⟨offset + byteCount l.mark, l.text⟩ :: placed (offset + byteCount l.whole) ls

theorem stretch_eq (first : Bool) {offset : Nat} (h : first = true ↔ offset = 0) (ended : Text) :
    stretch offset ended = ⟨offset + byteCount (Line.ofEnded first ended).mark,
      (Line.ofEnded first ended).text⟩ := by
  unfold stretch Line.ofEnded
  cases Text.lineBody ended with
  | nil => cases offset <;> rfl
  | cons c t =>
    cases offset with
    | zero =>
      obtain rfl : first = true := by simpa using h
      by_cases hc : c = '\uFEFF'
      · subst hc
        rfl
      · simp [hc]
    | succ n =>
      obtain rfl : first = false := by simpa using h
      rfl

theorem stretchesFrom_eq {offset : Nat} (h : offset ≠ 0) (ls : List Text) :
    stretchesFrom offset ls = placed offset (ls.map (Line.ofEnded false)) := by
  induction ls generalizing offset with
  | nil => rfl
  | cons l ls ih =>
    rw [stretchesFrom, List.map_cons, placed, Line.whole_ofEnded, ih (by omega),
      stretch_eq false (by simpa using h)]

/-- Every line starts behind the lines above it and its own mark. -/
theorem stretches_eq (t : Text) : stretches t = placed 0 (Line.ofText t) := by
  unfold stretches Line.ofText
  cases hlines : Text.endedLines t with
  | nil => rfl
  | cons l ls =>
    have hl : l ≠ [] := by
      obtain ⟨b, -, ⟨rfl, -⟩ | ⟨rfl, hb, -⟩⟩ := Text.endedLines_eq_cons hlines
      · simp
      · exact hb
    have hsize : 0 + byteCount l ≠ 0 := by simpa using Text.byteCount_ne_zero hl
    rw [stretchesFrom, stretchesFrom_eq hsize, placed, Line.whole_ofEnded,
      stretch_eq true (by simp)]

theorem mem_placed {offset : Nat} {ls : List Line} {l : Stretch} (h : l ∈ placed offset ls) :
    ∃ above line below, ls = above ++ line :: below ∧ l.text = line.text ∧
      l.start = offset + byteCount ((above.map Line.whole).flatten ++ line.mark) := by
  induction ls generalizing offset with
  | nil => cases h
  | cons line ls ih =>
    rcases List.mem_cons.mp h with rfl | h
    · exact ⟨[], line, ls, rfl, rfl, rfl⟩
    · obtain ⟨above, line', below, rfl, htext, hstart⟩ := ih h
      refine ⟨line :: above, line', below, rfl, htext, ?_⟩
      rw [hstart]
      simp [Nat.add_assoc]

/-- A line is cut out of the text where it starts. -/
theorem cut_of_mem_stretches {t : Text} {l : Stretch} (h : l ∈ stretches t) :
    cut l.start (l.start + byteCount l.text) t = .ok l.text := by
  rw [stretches_eq] at h
  obtain ⟨above, line, below, hlines, htext, hstart⟩ := mem_placed h
  rw [Nat.zero_add] at hstart
  refine Text.cut_of_append (s := (above.map Line.whole).flatten ++ line.mark)
    (r := line.ending ++ (below.map Line.whole).flatten) ?_ hstart ?_
  · rw [← Line.ofText_flatten t, hlines, htext]
    simp [Line.whole]
  · rw [Text.byteCount_append, hstart]

theorem byteCount_take_indent (l : Line) : byteCount (l.text.take l.indent) = l.indent := by
  have hspaces {w : Text} (hw : ∀ c ∈ w, c = ' ') : byteCount w = w.length := by
    induction w with
    | nil => rfl
    | cons c w ih =>
      obtain ⟨rfl, hrest⟩ := List.forall_mem_cons.mp hw
      have hsize : Char.utf8Size ' ' = 1 := by decide
      rw [Text.byteCount_cons, ih hrest, hsize, List.length_cons, Nat.add_comm]
  rw [l.take_indent, hspaces fun c hc => by simpa using List.all_eq_true.mp List.all_takeWhile c hc]
  rfl

@[simp]
theorem indent_eq (start : Nat) (l : Line) : (Stretch.mk start l.text).indent = l.indent := by
  have hcount := byteCount_take_indent l
  rw [l.take_indent] at hcount
  rw [Stretch.indent, Text.byteCount_sub_dropWhile, hcount]

@[simp] theorem isSignificant_eq (start : Nat) (l : Line) :
    (Stretch.mk start l.text).isSignificant = l.isSignificant := by
  rw [Stretch.isSignificant, indent_eq]
  rfl

theorem cutFrom_indent {l : Line} {s r : Text} (h : l.text.drop l.indent = s ++ r) :
    cutFrom (l.indent + byteCount s) l.text = .ok r := by
  refine Text.cutFrom_of_append (s := l.text.take l.indent ++ s) ?_ ?_
  · rw [List.append_assoc, ← h, List.take_append_drop]
  · rw [Text.byteCount_append, byteCount_take_indent]

theorem map_ofLocated_ofField (offset : Nat) (l : Line) (f : Field) (below : List Line) :
    (Located.ofField l f below).map (Span.ofLocated offset) =
      ((Scalar.scan f.rest).mapError Unlocated.unsupported).map
        (Span.ofScalar (offset + byteCount l.mark + l.indent + byteCount f.head)) := by
  unfold Located.ofField
  cases Scalar.scan f.rest with
  | error form => rfl
  | ok s =>
    refine congrArg Except.ok (?_ : Span.ofLocated offset _ = Span.ofScalar _ s)
    simp [Span.ofLocated, Span.ofScalar, Located.span, byteCount_take_indent, Nat.add_assoc]

theorem filter_splitKey (key t : Text) :
    ((Field.ofText? t).map fun f => (f.key, byteCount f.head)).filter (·.1 = key) =
      ((Field.ofText? t).filter (·.key = key)).map fun f => (f.key, byteCount f.head) := by
  cases Field.ofText? t with
  | none => rfl
  | some f => simp only [Option.map_some, Option.filter_some]; split <;> rfl

theorem locateFrom_version (offset : Nat) (level : Option Nat) (ls : List Line) :
    locateFrom true level (placed offset ls) =
      .ok ((Located.findVersion level ls).map (Span.ofLocated offset)) := by
  induction ls generalizing offset level with
  | nil => rfl
  | cons l ls ih =>
    rw [placed, locateFrom, Located.findVersion]
    simp only [isSignificant_eq, indent_eq, Bool.not_true, Bool.false_eq_true, if_false]
    split
    · rw [ih, Span.map_ofLocated_precede]
    split
    · rfl
    next hindent =>
    by_cases hlevel : l.indent = level.getD l.indent
    · have hbody : cutFrom l.indent l.text = .ok (l.text.drop l.indent) :=
        cutFrom_indent (s := []) rfl
      rw [if_neg (not_not_intro hlevel), if_pos hlevel, hbody, ok_bind, splitKey_eq, ok_bind,
        filter_splitKey]
      cases hfield : (Field.ofText? (l.text.drop l.indent)).filter (·.key = versionKey) with
      | none =>
        simp only [Option.map_none, ih]
        rw [Span.map_ofLocated_precede]
      | some f =>
        obtain ⟨hf, -⟩ := Option.filter_eq_some_iff.mp hfield
        obtain ⟨hrest, -⟩ := Field.ofText?_eq_some hf
        simp only [Option.map_some, cutFrom_indent hrest, ok_bind, scanScalar_eq]
        rw [map_ofLocated_ofField]
    · rw [if_pos hlevel, if_neg hlevel, ih, Option.filter_none]
      dsimp only
      rw [Span.map_ofLocated_precede]

theorem locateFrom_context (offset : Nat) (ls : List Line) :
    locateFrom false none (placed offset ls) =
      .ok ((Located.findContext ls).map (Span.ofLocated offset)) := by
  induction ls generalizing offset with
  | nil => rfl
  | cons l ls ih =>
    rw [placed, locateFrom, Located.findContext]
    simp only [isSignificant_eq, indent_eq]
    by_cases hline : l.isSignificant = true
    · by_cases hindent : l.indent = 0
      · have htop : (l.isSignificant && decide (l.indent = 0)) = true := by simp [hline, hindent]
        rw [if_neg (by simp [hline]), if_pos hindent, if_neg (by simp), splitKey_eq, ok_bind,
          filter_splitKey, if_pos htop]
        cases hfield : (Field.ofText? l.text).filter (·.key = contextKey) with
        | none =>
          simp only [Option.map_none, ih]
          rw [Span.map_ofLocated_precede]
        | some f =>
          obtain ⟨hf, -⟩ := Option.filter_eq_some_iff.mp hfield
          obtain ⟨hrest, -⟩ := Field.ofText?_eq_some hf
          have hafter : cutFrom (byteCount f.head) l.text = .ok f.rest :=
            Text.cutFrom_of_append hrest rfl
          simp only [Option.map_some, hafter, ok_bind, locateFrom_version]
          split
          · rw [Span.map_ofLocated_precede]
          · rfl
      · rw [if_neg (by simp [hline]), if_neg hindent, if_pos (by simp), ih,
          if_neg (by simp [hindent]), Option.filter_none]
        dsimp only
        rw [Span.map_ofLocated_precede]
    · rw [if_pos (by simp [hline]), ih, if_neg (by simp [hline]), Option.filter_none]
      dsimp only
      rw [Span.map_ofLocated_precede]

theorem locate_eq (t : Text) : locate t = .ok ((Located.find t).map (Span.ofLocated 0)) := by
  rw [locate, stretches_eq, locateFrom_context]
  rfl

theorem not_mem_of_spells_double {token value : Text} (h : Style.double.Spells token value) :
    '"' ∉ value ∧ '\\' ∉ value := by
  cases h with
  | double hquote hescape => exact ⟨hquote, hescape⟩

/-- On no text a cut fails: lines, keys, scalars and the version have the offsets of what is read by
characters. A version that is found is cut out of the text, on one line and as its style has it. -/
theorem locate_exact (t : Text) :
    (∀ l ∈ stretches t, cut l.start (l.start + byteCount l.text) t = .ok l.text) ∧
      splitKey t = .ok ((Field.ofText? t).map fun f => (f.key, byteCount f.head)) ∧
      (∀ base, scanScalar t base =
        .ok (((Scalar.scan t).mapError Unlocated.unsupported).map (Span.ofScalar base))) ∧
      locate t = .ok ((Located.find t).map (Span.ofLocated 0)) ∧
      ∀ k, locate t = .ok (.ok k) →
        (String.Pos.Raw.mk k.start).IsValid (String.ofList t) ∧
          (String.Pos.Raw.mk k.stop).IsValid (String.ofList t) ∧
          cut k.start k.stop t = .ok (k.style.written k.value) ∧
          '\n' ∉ k.style.written k.value ∧
          (k.style = .double → '"' ∉ k.value ∧ '\\' ∉ k.value) := by
  refine ⟨fun l => cut_of_mem_stretches, splitKey_eq t, scanScalar_eq t, locate_eq t,
    fun k hk => ?_⟩
  obtain ⟨l, hfind, rfl⟩ := map_eq_ok (Except.ok.inj ((locate_eq t).symm.trans hk))
  obtain ⟨happend, hspells⟩ := Located.find_append hfind
  obtain ⟨f, -, -, -, hfeed⟩ := Located.find_frame hfind
  have htoken : l.token = l.style.written l.value := hspells.eq_written
  have hstart : (Span.ofLocated 0 l).start = byteCount l.before := Nat.zero_add _
  have hstop : (Span.ofLocated 0 l).stop = byteCount (l.before ++ l.token) := by
    rw [Text.byteCount_append]
    exact Nat.zero_add _
  refine ⟨?_, ?_, ?_, htoken ▸ hfeed, fun hstyle => ?_⟩
  · exact Text.isValid_of_append (by rw [← happend, List.append_assoc]) hstart
  · exact Text.isValid_of_append happend.symm hstop
  · exact Text.cut_of_append (htoken ▸ happend.symm) hstart (htoken ▸ hstop)
  · have hdouble : l.style = .double := hstyle
    rw [hdouble] at hspells
    exact not_mem_of_spells_double hspells

/-- A byte order mark, characters of several bytes, lone returns and quotes that stay open. -/
theorem locate_exact_amid_noise :
    let t := "\uFEFFü: 'é\r\r\n\ncontext: # ł\r\n  a: \"\n  'version'\u00A0:\t'1''2' # ß\n".toList
    let k : Span := ⟨51, 57, .single, "1'2".toList⟩
    locate t = .ok (.ok k) ∧ cut k.start k.stop t = .ok "'1''2'".toList ∧
      (String.Pos.Raw.mk k.start).IsValid (String.ofList t) := by
  intro t k
  have hfind : (Located.find t).map (Span.ofLocated 0) = .ok k :=
    eq_ok_of_toOption (by decide +kernel)
  have hk : locate t = .ok (.ok k) := by rw [locate_eq, hfind]
  obtain ⟨-, -, -, -, hexact⟩ := locate_exact t
  obtain ⟨hstart, -, hcut, -⟩ := hexact k hk
  exact ⟨hk, hcut, hstart⟩

end VersionDrift.Scanner
