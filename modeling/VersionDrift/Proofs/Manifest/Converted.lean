import VersionDrift.Proofs.Manifest.Framed

/-!
# Line ends and byte order marks

A text may be stored with a carriage return before every line feed, or with a byte order
mark in front. The search for the version does not see either: it goes by the texts of the
lines, which stay the same. So the place it finds is the old one in the converted text, and
loading and rewriting go along, wherever the reader of documents takes the converted texts
as it takes the others. The two conversions share all that follows from the search.
-/

set_option autoImplicit false

namespace VersionDrift

namespace Text

def returned (t : Text) : Text := replaceChar '\n' ['\r', '\n'] t

@[simp] theorem returned_feed (t : Text) : returned ('\n' :: t) = '\r' :: '\n' :: returned t := rfl

theorem returned_cons {c : Char} (hc : c ≠ '\n') (t : Text) :
    returned (c :: t) = c :: returned t := if_neg hc

@[simp] theorem returned_append (s t : Text) : returned (s ++ t) = returned s ++ returned t :=
  replaceChar_append '\n' ['\r', '\n'] s t

theorem returned_of_not_mem {t : Text} (h : '\n' ∉ t) : returned t = t :=
  replaceChar_of_not_mem ['\r', '\n'] h

theorem byteCount_returned (t : Text) : byteCount (returned t) = byteCount t + t.count '\n' := by
  induction t with
  | nil => rfl
  | cons c t ih =>
    by_cases hc : c = '\n'
    · subst hc
      have hreturn : Char.utf8Size '\r' = 1 := by decide
      rw [returned_feed, byteCount_cons, byteCount_cons, byteCount_cons, ih, hreturn,
        List.count_cons_self]
      omega
    · rw [returned_cons hc, byteCount_cons, byteCount_cons, ih, List.count_cons_of_ne hc,
        Nat.add_assoc]

theorem endedLines_returned (t : Text) :
    endedLines (returned t) = (endedLines t).map returned := by
  induction t with
  | nil => rfl
  | cons c t ih =>
    by_cases hc : c = '\n'
    · subst hc
      simp only [returned_feed, endedLines, if_true, List.map_cons, ih]
      rfl
    · rw [returned_cons hc, endedLines, endedLines, if_neg hc, if_neg hc, ih]
      cases endedLines t with
      | nil => simp [returned_of_not_mem (t := [c]) (by simpa using Ne.symm hc)]
      | cons l ls => simp [returned_cons hc]

theorem getD_dropLast?_cons {c d : Char} (hc : c ≠ d) (t : Text) :
    (dropLast? d (c :: t)).getD (c :: t) = c :: (dropLast? d t).getD t := by
  cases t with
  | nil => simp [dropLast?, hc]
  | cons e t =>
    rw [dropLast?]
    · cases dropLast? d (e :: t) <;> rfl
    · simp

theorem lineBody_cons {c : Char} (hfeed : c ≠ '\n') (hreturn : c ≠ '\r') (line : Text) :
    lineBody (c :: line) = c :: lineBody line := by
  rw [lineBody, getD_dropLast?_cons hfeed]
  exact getD_dropLast?_cons hreturn _

end Text

namespace Line

def returned (l : Line) : Line := { l with ending := Text.returned l.ending }

theorem whole_returned {l : Line} (h : '\n' ∉ l.mark ++ l.text) :
    l.returned.whole = Text.returned l.whole := by
  rw [whole, whole, Text.returned_append, Text.returned_of_not_mem h]
  rfl

theorem ofEnded_returned (first : Bool) {b e : Text} (hb : '\n' ∉ b) (hreturn : '\r' ∉ b)
    (he : e = [] ∨ e = ['\n']) :
    ofEnded first (Text.returned (b ++ e)) = (ofEnded first (b ++ e)).returned := by
  have hlast : b.getLast? ≠ some '\r' := fun h => hreturn (List.mem_of_getLast? h)
  have hbody : Text.lineBody (b ++ e) = b := by
    refine Text.lineBody_append_ending ?_ hb (.inr hlast)
    rcases he with rfl | rfl <;> simp [Text.IsEnding]
  have hbody' : Text.lineBody (b ++ Text.returned e) = b := by
    refine Text.lineBody_append_ending ?_ hb (.inr hlast)
    rcases he with rfl | rfl <;> simp [Text.IsEnding, Text.returned]
  rw [Text.returned_append, Text.returned_of_not_mem hb]
  simp only [ofEnded, hbody, hbody', List.drop_left]
  cases b with
  | nil => rfl
  | cons c b =>
    dsimp only
    split <;> rfl

theorem ofText_returned {t : Text} (h : '\r' ∉ t) :
    ofText (Text.returned t) = (ofText t).map returned := by
  have hended (first : Bool) (l : Text) (hl : l ∈ Text.endedLines t) :
      ofEnded first (Text.returned l) = (ofEnded first l).returned := by
    have hreturn : '\r' ∉ l := fun hmem =>
      h (Text.endedLines_flatten t ▸ List.mem_flatten_of_mem hl hmem)
    obtain ⟨b, hb, rfl | rfl⟩ := Text.shape_of_mem_endedLines hl
    · exact ofEnded_returned first hb (fun hmem => hreturn (List.mem_append_left _ hmem)) (.inr rfl)
    · simpa using ofEnded_returned first hb hreturn (.inl rfl)
  unfold ofText
  rw [Text.endedLines_returned]
  cases hlines : Text.endedLines t with
  | nil => rfl
  | cons l ls =>
    rw [hlines] at hended
    have hls : ls.map (ofEnded false ∘ Text.returned) = ls.map (returned ∘ ofEnded false) :=
      List.map_congr_left fun l' hl' => hended false l' (List.mem_cons_of_mem l hl')
    simp [hended true l List.mem_cons_self, hls]

theorem ofText_marked {t : Text} (h : t.head? ≠ some '\uFEFF') {l : Line} {ls : List Line}
    (hlines : ofText t = l :: ls) :
    ofText ('\uFEFF' :: t) = { l with mark := '\uFEFF' :: l.mark } :: ls := by
  unfold ofText at hlines
  split at hlines
  · cases hlines
  next first rest hended =>
  obtain ⟨rfl, rfl⟩ := List.cons.inj hlines
  have hmarked : Text.endedLines ('\uFEFF' :: t) = ('\uFEFF' :: first) :: rest := by
    rw [Text.endedLines, if_neg (by decide), hended]
  have hbody := Text.lineBody_cons (c := '\uFEFF') (by decide) (by decide) first
  have hunmarked : (Text.lineBody first).head? ≠ some '\uFEFF' := by
    obtain ⟨hcut, -⟩ := Text.lineBody_lineEnding first
    have ht := Text.endedLines_flatten t
    rw [hended, List.flatten_cons, ← hcut] at ht
    intro hhead
    exact h (by rw [← ht]; simp [hhead])
  rw [ofText, hmarked]
  simp only [ofEnded, hbody, List.length_cons, List.drop_succ_cons]
  cases hfirst : Text.lineBody first with
  | nil => rfl
  | cons c b =>
    have hc : c ≠ '\uFEFF' := by simpa [hfirst] using hunmarked
    simp [hc]

end Line

/-- The ways to store a text otherwise: with a carriage return before every line feed, or with a
byte order mark in front. -/
inductive Conversion where
  | returned
  | marked
deriving DecidableEq, Repr

namespace Conversion

def apply : Conversion → Text → Text
  | returned, t => t.returned
  | marked, t => '\uFEFF' :: t

/-- The text is not stored in that way already. -/
def Applies : Conversion → Text → Prop
  | returned, t => '\r' ∉ t
  | marked, t => t.head? ≠ some '\uFEFF'

instance : (c : Conversion) → (t : Text) → Decidable (c.Applies t)
  | returned, t => inferInstanceAs (Decidable ('\r' ∉ t))
  | marked, t => inferInstanceAs (Decidable (t.head? ≠ some '\uFEFF'))

def ofEnd : Conversion → Text → Text
  | returned, t => t.returned
  | marked, t => t

/-- How many bytes a place moves on that stands behind the text `t`. -/
def shift : Conversion → Text → Nat
  | returned, t => t.count '\n'
  | marked, _ => 3

def located (c : Conversion) (l : Located) : Located :=
  { l with before := c.apply l.before, after := c.ofEnd l.after }

def manifest (c : Conversion) (m : Manifest) : Manifest := { m with source := c.apply m.source }

theorem byteCount_apply (c : Conversion) (t : Text) :
    Text.byteCount (c.apply t) = Text.byteCount t + c.shift t := by
  cases c with
  | returned => exact Text.byteCount_returned t
  | marked =>
    have hmark : Char.utf8Size '\uFEFF' = 3 := by decide
    simp only [apply, shift, Text.byteCount, hmark]
    omega

@[simp] theorem span_located (c : Conversion) (l : Located) : (c.located l).span =
    (l.span.1 + c.shift l.before, l.span.2 + c.shift l.before) := by
  simp only [Located.span, located, byteCount_apply, Prod.mk.injEq, true_and]
  omega

theorem apply_append (c : Conversion) {s w t : Text} (hw : '\n' ∉ w) :
    c.apply (s ++ w ++ t) = c.apply s ++ w ++ c.ofEnd t := by
  cases c with
  | returned => simp only [apply, ofEnd, Text.returned_append, Text.returned_of_not_mem hw]
  | marked => simp [apply, ofEnd]

end Conversion

namespace Located

open Conversion (located)

theorem map_precede_returned {l : Line} (hl : '\n' ∉ l.mark ++ l.text)
    (r : Except Unlocated Located) : (r.map (precede l.whole)).map (located .returned) =
      (r.map (located .returned)).map (precede l.returned.whole) := by
  cases r with
  | error why => rfl
  | ok found =>
    simp only [map_ok, located, precede, Conversion.apply, Text.returned_append,
      Line.whole_returned hl]

section

variable {l : Line} {ls : List Line}

theorem ofField_returned {f : Field} (hl : '\n' ∉ l.mark ++ l.text)
    (hls : ∀ l ∈ ls, '\n' ∉ l.mark ++ l.text)
    (hf : Field.ofText? (l.text.drop l.indent) = some f) :
    ofField l.returned f (ls.map Line.returned) = (ofField l f ls).map (located .returned) := by
  have hwhole : (ls.map Line.returned).map Line.whole = (ls.map Line.whole).map Text.returned := by
    simp only [List.map_map]
    exact List.map_congr_left fun l hl => Line.whole_returned (hls l hl)
  have hflatten (ts : List Text) : Text.returned ts.flatten = (ts.map Text.returned).flatten := by
    induction ts with
    | nil => rfl
    | cons t ts ih => rw [List.flatten_cons, Text.returned_append, ih]; rfl
  unfold ofField
  cases hscan : Scalar.scan f.rest with
  | error form => rfl
  | ok s =>
    obtain ⟨hfield, -, -⟩ := Field.ofText?_eq_some hf
    obtain ⟨hcut, -⟩ := Scalar.scan_eq_ok hscan
    have htext : l.text = l.text.take l.indent ++ (f.head ++ (s.gap ++ s.token ++ s.after)) := by
      rw [← hcut, ← hfield, List.take_append_drop]
    rw [htext] at hl
    simp only [List.mem_append, not_or] at hl
    obtain ⟨hmark, hspaces, hhead, ⟨hgap, htoken⟩, hafter⟩ := hl
    have hbefore : '\n' ∉ l.mark ++ l.text.take l.indent ++ f.head ++ s.gap := by
      simp [hmark, hspaces, hhead, hgap]
    simp only [map_ok, located, Conversion.apply, Conversion.ofEnd, Text.returned_append,
      Text.returned_of_not_mem hbefore, Text.returned_of_not_mem hafter, hflatten, ← hwhole]
    rfl

theorem findVersion_returned (known : Option Nat) (hls : ∀ l ∈ ls, '\n' ∉ l.mark ++ l.text) :
    findVersion known (ls.map Line.returned) =
      (findVersion known ls).map (located .returned) := by
  induction ls generalizing known with
  | nil => rfl
  | cons l ls ih =>
    obtain ⟨hl, hls⟩ := List.forall_mem_cons.mp hls
    rw [List.map_cons]
    by_cases hline : l.isSignificant = true
    · by_cases hindent : l.indent = 0
      · have hreturned : l.returned.isSignificant = true := hline
        rw [findVersion_of_margin hline hindent, findVersion_of_margin hreturned hindent]
        rfl
      cases hfield : l.hasField versionKey (known.getD l.indent) with
      | true =>
        have hreturned : l.returned.indent ≠ 0 := hindent
        obtain ⟨f, hf, -, hfind⟩ := findVersion_of_hasField hindent hfield
        obtain ⟨f', hf', -, hfind'⟩ := findVersion_of_hasField hreturned hfield
        obtain rfl : f' = f := Option.some.inj (hf'.symm.trans hf)
        rw [hfind, hfind', ofField_returned hl hls hf]
      | false =>
        have hreturned : l.returned.isSignificant = true := hline
        rw [findVersion_of_other hline hindent hfield,
          findVersion_of_other hreturned hindent hfield, map_precede_returned hl, ← ih _ hls]
        rfl
    · rw [Bool.not_eq_true] at hline
      have hreturned : l.returned.isSignificant = false := hline
      rw [findVersion_of_insignificant hline, findVersion_of_insignificant hreturned,
        map_precede_returned hl, ih _ hls]

theorem findContext_returned (hls : ∀ l ∈ ls, '\n' ∉ l.mark ++ l.text) :
    findContext (ls.map Line.returned) = (findContext ls).map (located .returned) := by
  induction ls with
  | nil => rfl
  | cons l ls ih =>
    obtain ⟨hl, hls⟩ := List.forall_mem_cons.mp hls
    rw [List.map_cons]
    have hreturned : l.returned.hasField contextKey 0 = l.hasField contextKey 0 := rfl
    cases hfield : l.hasField contextKey 0 with
    | true =>
      obtain ⟨f, hf⟩ := Line.exists_field_of_hasField hfield
      rw [findContext_of_hasField hfield hf, findContext_of_hasField (hreturned.trans hfield) hf]
      split
      · rw [map_precede_returned hl, findVersion_returned none hls]
      · rfl
    | false =>
      rw [findContext_of_other hfield, findContext_of_other (hreturned.trans hfield),
        map_precede_returned hl, ih hls]

theorem findContext_marked (mark : Char) : findContext ({ l with mark := mark :: l.mark } :: ls) =
    (findContext (l :: ls)).map fun found => { found with before := mark :: found.before } := by
  have hwhole : ({ l with mark := mark :: l.mark } : Line).whole = mark :: l.whole := rfl
  have hmarked : ({ l with mark := mark :: l.mark } : Line).hasField contextKey 0 =
    l.hasField contextKey 0 := rfl
  cases hfield : l.hasField contextKey 0 with
  | true =>
    obtain ⟨f, hf⟩ := Line.exists_field_of_hasField hfield
    rw [findContext_of_hasField hfield hf, findContext_of_hasField (hmarked.trans hfield) hf,
      hwhole]
    split
    · cases findVersion none ls <;> rfl
    · rfl
  | false =>
    rw [findContext_of_other hfield, findContext_of_other (hmarked.trans hfield), hwhole]
    cases findContext ls <;> rfl

end

/-- In a converted text the search finds the old place, or fails for the same reason. -/
theorem find_apply (c : Conversion) {t : Text} (h : c.Applies t) :
    find (c.apply t) = (find t).map c.located := by
  cases c with
  | returned =>
    rw [find, Conversion.apply, Line.ofText_returned h]
    exact findContext_returned fun l hl => Line.feed_not_mem hl
  | marked =>
    unfold find
    cases hlines : Line.ofText t with
    | nil =>
      have hnil : t = [] := by rw [← Line.ofText_flatten t, hlines]; rfl
      subst hnil
      rfl
    | cons l ls =>
      rw [Conversion.apply, Line.ofText_marked h hlines]
      exact findContext_marked '\uFEFF'

end Located

namespace Conversion

theorem applies_encode (c : Conversion) {t : Text} (h : c.Applies t) {l : Located}
    (hfind : Located.find t = .ok l) (v : Triple) :
    c.Applies (l.before ++ l.style.encode v.dotted ++ l.after) := by
  obtain ⟨rfl, -⟩ := Located.find_append hfind
  cases c with
  | returned =>
    simp only [Applies, List.mem_append, not_or] at h ⊢
    exact ⟨⟨h.1.1, v.return_not_mem_encode l.style⟩, h.2⟩
  | marked =>
    have hnew : '\uFEFF' ∉ l.style.encode v.dotted :=
      v.not_mem_encode _ (by decide) (by decide) (by decide) (by decide)
    obtain ⟨d, w, hencode, -⟩ := (v.spells_encode l.style).eq_cons
    rw [hencode] at hnew ⊢
    cases hbefore : l.before with
    | nil => simpa [Applies, eq_comm] using fun hd : d = '\uFEFF' => hnew (by simp [hd])
    | cons e before => simpa [Applies, hbefore] using h

open Manifest

variable {read : Reader} {t : Text}

theorem loadWith_apply (c : Conversion) (h : c.Applies t) (hread : read (c.apply t) = read t) :
    loadWith read (c.apply t) = (loadWith read t).map c.manifest := by
  have hversion (s : Stated) : versionOf (c.apply t) s = versionOf t s := by
    cases s with
    | string w => rfl
    | number n =>
      rw [versionOf, versionOf, Located.find_apply c h]
      cases Located.find t <;> rfl
  unfold loadWith
  rw [hread]
  cases read t with
  | error e => rfl
  | ok x =>
    dsimp only
    cases stated x with
    | error fault => rfl
    | ok s =>
      dsimp only
      rw [hversion]
      rfl

theorem locate_manifest (c : Conversion) {m : Manifest} (h : c.Applies m.source) :
    (c.manifest m).locate = m.locate.map c.located := by
  have hfind : Located.find (c.manifest m).source = (Located.find m.source).map c.located :=
    Located.find_apply c h
  unfold locate
  rw [hfind]
  cases Located.find m.source with
  | error why => rfl
  | ok l =>
    have hvalue : (c.located l).value = l.value := rfl
    have hversion : (c.manifest m).version = m.version := rfl
    simp only [map_ok, hvalue, hversion]
    split <;> rfl

theorem rewriteWith_manifest (c : Conversion) {m : Manifest} (h : c.Applies m.source) (v : Triple)
    (hread : ∀ l, Located.find m.source = .ok l →
      read (c.apply (l.before ++ l.style.encode v.dotted ++ l.after)) =
        read (l.before ++ l.style.encode v.dotted ++ l.after)) :
    (c.manifest m).rewriteWith read v.dotted =
      (m.rewriteWith read v.dotted).map c.manifest := by
  unfold rewriteWith
  rw [locate_manifest c h]
  cases hlocate : m.locate with
  | error fault => rfl
  | ok l =>
    obtain ⟨hfind, -⟩ := locate_eq_ok hlocate
    have htext : (c.located l).before ++ (c.located l).style.encode v.dotted ++
        (c.located l).after = c.apply (l.before ++ l.style.encode v.dotted ++ l.after) :=
      (c.apply_append (v.feed_not_mem_encode l.style)).symm
    simp only [map_ok]
    rw [htext, loadWith_apply c (c.applies_encode h hfind v) (hread l hfind)]
    cases loadWith read (l.before ++ l.style.encode v.dotted ++ l.after) with
    | error e => rfl
    | ok new =>
      have hversion : (c.manifest new).version = new.version := rfl
      simp only [map_ok, hversion]
      split <;> rfl

end Conversion

namespace Yaml

theorem Value.ofText_congr {s t : Text} (h : Token.ofText s = Token.ofText t) :
    Value.ofText s = Value.ofText t := by
  simp only [Value.ofText, Document.ofText, h]

theorem unifyBreaks_returned {t : Text} (h : '\r' ∉ t) :
    unifyBreaks (Text.returned t) = unifyBreaks t := by
  induction t with
  | nil => rfl
  | cons c t ih =>
    obtain ⟨hc, ht⟩ := not_or.mp (mt List.mem_cons.mpr h)
    have hrest : unifyBreaksFrom false (Text.returned t) = unifyBreaksFrom false t := ih ht
    by_cases hfeed : c = '\n'
    · subst hfeed
      simp [unifyBreaks, unifyBreaksFrom, hrest]
    · simp only [unifyBreaks, Text.returned_cons hfeed, unifyBreaksFrom, hrest, if_neg (Ne.symm hc)]

theorem all_isAllowed_returned (t : Text) : (Text.returned t).all isAllowed = t.all isAllowed := by
  induction t with
  | nil => rfl
  | cons c t ih =>
    by_cases hfeed : c = '\n'
    · subst hfeed
      have hallowed : isAllowed '\r' = true ∧ isAllowed '\n' = true := by decide
      simp [hallowed, ih]
    · rw [Text.returned_cons hfeed, List.all_cons, List.all_cons, ih]

theorem Value.ofText_returned {t : Text} (h : '\r' ∉ t) :
    Value.ofText (Text.returned t) = Value.ofText t := by
  refine Value.ofText_congr ?_
  rw [Token.ofText, Token.ofText, all_isAllowed_returned, unifyBreaks_returned h]

end Yaml

namespace Conversion

open Manifest

/-- A converted text is searched as the text itself: the place moves by the bytes that were added in
front of it, and a failure has the same reason. Where the reader of documents takes the converted
texts alike, loading and rewriting commute with the conversion, failures included; with carriage
returns it always does. -/
theorem search_and_rewrite_apply (c : Conversion) :
    (∀ t, c.Applies t → Located.find (c.apply t) = (Located.find t).map c.located ∧
      ∀ l, (c.located l).style = l.style ∧ (c.located l).value = l.value ∧
        (c.located l).span = (l.span.1 + c.shift l.before, l.span.2 + c.shift l.before)) ∧
    (∀ (read : Reader) (t : Text), c.Applies t → read (c.apply t) = read t →
      loadWith read (c.apply t) = (loadWith read t).map c.manifest) ∧
    (∀ (read : Reader) (m : Manifest) (v : Triple), c.Applies m.source →
      (∀ l, Located.find m.source = .ok l →
        read (c.apply (l.before ++ l.style.encode v.dotted ++ l.after)) =
          read (l.before ++ l.style.encode v.dotted ++ l.after)) →
      (c.manifest m).rewriteWith read v.dotted =
        (m.rewriteWith read v.dotted).map c.manifest) ∧
    (c = .returned → ∀ t, c.Applies t → Yaml.Value.ofText (c.apply t) = Yaml.Value.ofText t) := by
  refine ⟨fun t h => ⟨Located.find_apply c h, fun l => ⟨rfl, rfl, c.span_located l⟩⟩,
    fun read t => c.loadWith_apply, fun read m v h => c.rewriteWith_manifest h v, ?_⟩
  rintro rfl t h
  exact Yaml.Value.ofText_returned h

-- To the reader of documents a mark is a column: the first line may no longer align with the rest.
example : (Yaml.Value.ofText (marked.apply "a: 1\nb: 2\n".toList)).toOption.isSome = false ∧
    (Yaml.Value.ofText "a: 1\nb: 2\n".toList).toOption.isSome = true := by decide +kernel

theorem search_and_rewrite_apply_amid_comment :
    let t := "context:\n  version: '1.2.3' # x\n".toList
    let l : Located := ⟨"context:\n  version: ".toList, "'1.2.3'".toList, " # x\n".toList, .single,
      "1.2.3".toList⟩
    let m : Manifest := ⟨t, "1.2.3".toList⟩
    let new : Manifest := ⟨"context:\n  version: '1.3.0' # x\n".toList, "1.3.0".toList⟩
    (Located.find (returned.apply t) = .ok (returned.located l) ∧
        load (returned.apply t) = .ok (returned.manifest m) ∧
        (returned.manifest m).rewrite "1.3.0".toList = .ok (returned.manifest new)) ∧
      Located.find (marked.apply t) = .ok (marked.located l) ∧
        load (marked.apply t) = .ok (marked.manifest m) ∧
        (marked.manifest m).rewrite "1.3.0".toList = .ok (marked.manifest new) := by
  intro t l m new
  have hfind : Located.find t = .ok l := eq_ok_of_toOption (by decide +kernel)
  have hload : load t = .ok m := eq_ok_of_toOption (by decide +kernel)
  have hnew : m.rewrite "1.3.0".toList = .ok new := eq_ok_of_toOption (by decide +kernel)
  have hsource (l' : Located) (hl' : Located.find m.source = .ok l') :
      l'.before ++ l'.style.encode (Triple.mk 1 3 0).dotted ++ l'.after = new.source := by
    obtain rfl := Except.ok.inj (hfind.symm.trans hl')
    decide +kernel
  have hstored (c : Conversion) (h : c.Applies t)
      (hread : Yaml.Value.ofText (c.apply t) = Yaml.Value.ofText t)
      (hread' : Yaml.Value.ofText (c.apply new.source) = Yaml.Value.ofText new.source) :
      Located.find (c.apply t) = .ok (c.located l) ∧ load (c.apply t) = .ok (c.manifest m) ∧
        (c.manifest m).rewrite "1.3.0".toList = .ok (c.manifest new) := by
    obtain ⟨hsearch, hloaded, hrewritten, -⟩ := search_and_rewrite_apply c
    refine ⟨(hsearch t h).1.trans (congrArg _ hfind), (hloaded _ t h hread).trans
      (congrArg _ hload), ?_⟩
    exact (hrewritten _ m ⟨1, 3, 0⟩ h fun l' hl' => by rw [hsource l' hl', hread']).trans
      (congrArg _ hnew)
  have hmarked (s : Text) (hread : (Yaml.Token.ofText s).toOption.isSome = true)
      (hsame : (Yaml.Token.ofText (marked.apply s)).toOption = (Yaml.Token.ofText s).toOption) :
      Yaml.Value.ofText (marked.apply s) = Yaml.Value.ofText s := by
    obtain ⟨ts, hts⟩ := Option.isSome_iff_exists.mp hread
    have hok : Yaml.Token.ofText s = .ok ts := eq_ok_of_toOption hts
    exact Yaml.Value.ofText_congr ((eq_ok_of_toOption (hsame.trans hts)).trans hok.symm)
  have hreturned := (search_and_rewrite_apply .returned).2.2.2 rfl
  exact ⟨hstored .returned (by decide) (hreturned t (by decide)) (hreturned _ (by decide)),
    hstored .marked (by decide) (hmarked t (by decide +kernel) (by decide +kernel))
      (hmarked _ (by decide +kernel) (by decide +kernel))⟩

end Conversion
end VersionDrift
