import VersionDrift.Proofs.Manifest.Meaning
import VersionDrift.Proofs.Yaml.AfterScalar
import VersionDrift.Proofs.Yaml.Revalued

/-!
# Ordinary layouts

A manifest states its version in the ordinary layout when the reader of documents comes
to it under two plain keys, in block mappings, as a scalar on the line of its key. The
search knows lines and indentation only; where it comes to that line, every version can
be put in place: what follows the token is a comment at most, the tokens around it stay,
and the new text has a value again. It does not come there when a quoted text above goes
on without indentation.
-/

set_option autoImplicit false

namespace VersionDrift

open Yaml

namespace Yaml

/-- The root of the document is a block mapping, the value under its plain key `outer` is one
without anchor and tag, and the value under the plain key `inner` there is a scalar without them.
The scalar is read on the line of its key; `rest` is the text after the colon. -/
inductive HasScalar (t outer inner value : Text) (style : ScalarStyle) (rest : Text) : Prop
  | mk {ts later : List Token} {q : Layout} {n : Nat} {c : Composition}
      (tokens : Token.ofText t = .ok ts) (reads : Layout.Reads (unifyBreaks t) q)
      (awaits : q.AwaitsScalar) (follows : q.cursor.rest = rest)
      (place : ts = q.emitted.reverse ++ .scalar value style :: later)
      (enters : Composition.Enters ts [outer] n c)
      (entry : c.tokens = .key :: .scalar inner .plain :: .value :: .scalar value style :: later)

end Yaml

/-- The scalar of the trace is the version of the document, written on one line: bare, or in quotes
without escapes. -/
structure Trace.StatesVersion (source : Text) (p : Trace) : Prop where
  lines : Line.ofText source = p.above ++ p.line :: p.below
  field : Field.ofText? (p.line.text.drop p.line.indent) = some p.field
  key : p.field.key = versionKey
  rest : p.field.rest = p.scalar.gap ++ (p.scalar.token ++ p.scalar.after)
  gap : ∀ c ∈ p.scalar.gap, Text.isGap c = true
  spells : p.scalar.style.Spells p.scalar.token p.scalar.value
  document : HasScalar source contextKey versionKey p.scalar.value (scalarStyle p.scalar.style)
    (unifyBreaks (p.field.rest ++ p.line.ending ++ (p.below.map Line.whole).flatten))

namespace Located

variable {t stem gap : Text} {l : Located} {v : Triple} {q : Layout} {ts later : List Token}

theorem over_replaced {r : Layout} (hfind : find t = .ok l)
    (hline : ∀ c ∈ l.token, breaksLine c = false) (hbefore : l.before = stem ++ gap)
    (hne : gap ≠ []) (hgap : ∀ c ∈ gap, Text.isGap c = true)
    (hreads : Layout.Reads (unifyBreaks t) q)
    (hrest : q.cursor.rest = gap ++ unifyBreaks (l.token ++ l.after)) (hq : q.AwaitsScalar)
    (hnext : q.next = .ok (some r))
    (hemitted : r.emitted = .scalar l.value (scalarStyle l.style) :: q.emitted)
    (hv : l.value ≠ v.dotted) : ∃ q' r' w,
      Layout.Reads (unifyBreaks (l.before ++ l.style.encode v.dotted ++ l.after)) q' ∧
      q'.next = .ok (some r') ∧ Layout.Over (w :: q.emitted) r' ∧
      w ≠ .scalar l.value (scalarStyle l.style) := by
  obtain ⟨q', r', rfl, hreads', hnext', hshift⟩ := reads_replaced (v := v) hfind hline hbefore hne
    hgap hreads hrest hnext (by rw [hemitted]; rfl)
  obtain ⟨c, u, htoken, hblank, hsharp⟩ := (v.spells_encode l.style).eq_cons
  have hbreak : isBreak c = false :=
    isBreak_of_breaksLine (breaksLine_encode l.style v c (by simp [htoken]))
  have hq' : (q.withCursor ⟨gap ++ (l.style.encode v.dotted ++ unifyBreaks l.after), q.cursor.line,
      q.cursor.column⟩).AwaitsScalar :=
    ⟨hq.candidate, hq.outer, hq.keyAllowed, hq.inside, hq.column⟩
  obtain ⟨w, -, -, hemitted', hover⟩ := hq'.puts_next (t := u ++ unifyBreaks l.after) hgap
    (by rw [htoken]; rfl) hblank hbreak hsharp hnext'
  refine ⟨_, r', w, hreads', hnext', hover, ?_⟩
  rintro rfl
  have hedited := hshift.edited.emitted.reverse.1
  have hsame : r'.emitted = r.emitted := hemitted'.trans hemitted.symm
  have hone := (hedited.eq_iff fun _ _ _ h => h.eq_iff hv).mp (congrArg List.reverse hsame)
  cases hone

theorem tokens_at (hfind : find t = .ok l) (hline : ∀ c ∈ l.token, breaksLine c = false)
    (hbefore : l.before = stem ++ gap) (hne : gap ≠ []) (hgap : ∀ c ∈ gap, Text.isGap c = true)
    (hreads : Layout.Reads (unifyBreaks t) q)
    (hrest : q.cursor.rest = gap ++ unifyBreaks (l.token ++ l.after)) (hq : q.AwaitsScalar)
    (hts : Token.ofText t = .ok ts)
    (hplace : ts = q.emitted.reverse ++ .scalar l.value (scalarStyle l.style) :: later)
    (hlast : ∀ t ∈ ts.getLast?, t.isScalar = false) (hv : l.value ≠ v.dotted) :
    Token.ofText (l.before ++ l.style.encode v.dotted ++ l.after) =
      .ok (q.emitted.reverse ++ .scalar v.dotted (scalarStyle l.style) :: later) := by
  obtain ⟨-, n, hrun⟩ := Token.ofText_eq_ok.mp hts
  obtain ⟨n, hrun⟩ := hreads.run hrun
  obtain ⟨hwhole, hspells⟩ := find_append hfind
  obtain ⟨c, u, htoken, hblank, hsharp⟩ := hspells.eq_cons
  have hbreak : isBreak c = false := isBreak_of_breaksLine (hline c (by simp [htoken]))
  have hrest' : q.cursor.rest = gap ++ c :: (u ++ unifyBreaks l.after) := by
    rw [hrest, unifyBreaks_append hline, htoken, List.cons_append]
  obtain ⟨_, r, -, -, -, -, hnext, k, hrun⟩ := hq.exists_step hgap hrest' hblank hbreak hsharp hrun
  obtain ⟨w, -, -, hemitted, hover⟩ := hq.puts_next hgap hrest' hblank hbreak hsharp hnext
  obtain rfl := Layout.AwaitsScalar.eq_of_over hover hrun hplace
  have hscalar : l.IsScalar := ⟨hline, stem, gap, q, r, hbefore, hne, hgap, hwhole.symm ▸ hreads,
    hrest, hnext, by rw [hemitted]; rfl⟩
  obtain ⟨ts', hts', hsummed, -⟩ := tokens_replaced (v := v) hfind hscalar hts hlast
  obtain ⟨q', r', w, hreads', hnext', hover', hdiffer⟩ :=
    over_replaced hfind hline hbefore hne hgap hreads hrest hq hnext hemitted hv
  obtain ⟨-, m, hrun'⟩ := Token.ofText_eq_ok.mp hts'
  obtain ⟨m, hrun'⟩ := (hreads'.next hnext').run hrun'
  obtain ⟨later', rfl⟩ := hover'.of_run hrun'
  have hsplit : (w :: q.emitted).reverse ++ later' = q.emitted.reverse ++ w :: later' := by simp
  rw [hplace, hsplit] at hsummed
  obtain ⟨hw, rfl⟩ := hsummed.tail_eq (fun _ _ _ h => h.eq_iff hv) hdiffer rfl
  obtain rfl : w = .scalar v.dotted (scalarStyle l.style) := by
    generalize hn : 1 = n at hw
    cases hw with
    | kept => cases hn
    | scalar => rfl
  rw [← hsplit]
  exact hts'

end Located

namespace Trace.StatesVersion

variable {source : Text} {p : Trace} {d : Document} {v : Triple}

theorem through (h : p.StatesVersion source) (hline : ∀ c ∈ p.field.rest, breaksLine c = false)
    (hd : Document.ofText source = .ok d) : p.Through (Line.ofText source) := by
  obtain ⟨ts, hts, hd⟩ := bind_eq_ok hd
  obtain ⟨htokens, hreads, hawaits, hfollows, hplace, henters, hentry⟩ := h.document
  obtain rfl := Except.ok.inj (hts.symm.trans htokens)
  obtain ⟨V, r, -, -, -, hts', -, -, u, us, rfl, hu⟩ := henters.exists_template hentry hd
  obtain ⟨-, n, hrun⟩ := Token.ofText_eq_ok.mp hts
  obtain ⟨n, hrun⟩ := hreads.run hrun
  rw [List.append_assoc, unifyBreaks_append hline, h.rest, List.append_assoc, List.append_assoc]
    at hfollows
  have hbreaks (c : Char) (hc : c ∈ p.field.rest) : isBreak c = false :=
    isBreak_of_breaksLine (hline c hc)
  rw [h.rest] at hbreaks
  obtain ⟨hnoise, hprecede, hfree⟩ := hawaits.rest_of_spells h.gap hfollows h.spells
    (fun c hc => hbreaks c (by simp [hc])) (fun c hc => hbreaks c (by simp [hc])) hrun hplace hu
  refine ⟨h.lines, h.field, h.key, ?_⟩
  rw [h.rest]
  exact Scalar.scan_of_spells h.gap h.spells hnoise hprecede hfree

theorem tokens_replaced (h : p.StatesVersion source)
    (hline : ∀ c ∈ p.field.rest, breaksLine c = false) (hthrough : p.Through (Line.ofText source))
    (hfind : Located.find source = .ok p.located) {q : Layout} {ts later : List Token}
    (hreads : Layout.Reads (unifyBreaks source) q) (hawaits : q.AwaitsScalar)
    (hfollows : q.cursor.rest = unifyBreaks (p.field.rest ++ p.line.ending ++
      (p.below.map Line.whole).flatten)) (hts : Token.ofText source = .ok ts)
    (hplace : ts =
      q.emitted.reverse ++ .scalar p.scalar.value (scalarStyle p.scalar.style) :: later)
    (hlast : ∀ t ∈ ts.getLast?, t.isScalar = false) (hv : p.scalar.value ≠ v.dotted) :
    Token.ofText (p.located.before ++ p.located.style.encode v.dotted ++ p.located.after) =
      .ok (q.emitted.reverse ++ .scalar v.dotted (scalarStyle p.scalar.style) :: later) := by
  have hgap : p.scalar.gap ≠ [] := by
    intro hnil
    obtain ⟨c, t, htoken, hc, -⟩ := h.spells.eq_cons
    have hblank : Text.isGap c = true := by
      have hat := hthrough.atGap p.scalar.token
      rwa [hnil, htoken] at hat
    rw [hc] at hblank
    cases hblank
  have hrest : q.cursor.rest =
      p.scalar.gap ++ unifyBreaks (p.located.token ++ p.located.after) := by
    rw [hfollows, h.rest, ← unifyBreaks_append fun c hc => breaksLine_of_isGap (h.gap c hc)]
    simp [Trace.located]
  refine Located.tokens_at hfind (fun c hc => hline c ?_) rfl hgap h.gap hreads hrest hawaits hts
    hplace hlast hv
  rw [h.rest]
  exact List.mem_append_right _ (List.mem_append_left _ hc)

/-- With another version in its place the document has a value again, which states that version. -/
theorem stated_replaced {x : Value} (h : p.StatesVersion source)
    (hline : ∀ c ∈ p.field.rest, breaksLine c = false) (hthrough : p.Through (Line.ofText source))
    (hfind : Located.find source = .ok p.located) (hx : Value.ofText source = .ok x) : ∃ cs y,
      x.get? contextKey = some (.mapping cs) ∧ Value.entry? versionKey cs = some y ∧
      Resolution.LeafOf p.scalar.value y ∧ (p.scalar.value ≠ v.dotted → ∃ x',
        Value.ofText (p.located.before ++ p.located.style.encode v.dotted ++ p.located.after) =
          .ok x' ∧ Manifest.stated x' = .ok (.string v.dotted)) := by
  obtain ⟨d, hd, hx⟩ := bind_eq_ok hx
  obtain ⟨ts, hts, hd⟩ := bind_eq_ok hd
  obtain ⟨-, hlast⟩ := Document.ofTokens_sourced hd
  obtain ⟨htokens, hreads, hawaits, hfollows, hplace, henters, hentry⟩ := h.document
  obtain rfl := Except.ok.inj (hts.symm.trans htokens)
  obtain ⟨V, r, houter, hinner, hstyle, hts', rfl, hfill, -⟩ :=
    henters.exists_template hentry hd
  obtain rfl := List.append_cancel_right (hplace.symm.trans hts')
  have honly : Resolution.OnlyString r.outer ∧ Resolution.OnlyString r.inner := by
    rw [houter, hinner]
    exact ⟨rfl, rfl⟩
  obtain ⟨x', cs, cs', y, hcs, hy, hleaf, hx', hcs', hy'⟩ :=
    r.value_fill honly.1 honly.2 (onlyString_dotted v) hx
  rw [houter] at hcs hcs'
  rw [hinner] at hy hy'
  refine ⟨cs, y, hcs, hy, hleaf, fun hv => ⟨x', ?_, ?_⟩⟩
  · rw [Value.ofText, Document.ofText, h.tokens_replaced hline hthrough hfind hreads hawaits
      hfollows hts hplace (hlast rfl) hv]
    change Document.ofTokens _ >>= Document.value = _
    rw [hfill]
    exact hx'
  · rw [Manifest.stated, hcs']
    dsimp only
    rw [hy']

theorem load_replaced {m : Manifest} (h : p.StatesVersion source)
    (hline : ∀ c ∈ p.field.rest, breaksLine c = false) (hthrough : p.Through (Line.ofText source))
    (hfind : Located.find source = .ok p.located) (hload : Manifest.load source = .ok m)
    (v : Triple) : m.version = p.scalar.value ∧
      Manifest.load (p.located.before ++ p.located.style.encode v.dotted ++ p.located.after) = .ok
        ⟨p.located.before ++ p.located.style.encode v.dotted ++ p.located.after, v.dotted⟩ := by
  obtain ⟨x, s, hx, hs, rfl⟩ := Manifest.loadWith_eq_ok hload
  obtain ⟨cs, y, hcs, hy, hleaf, hnew⟩ := h.stated_replaced (v := v) hline hthrough hfind hx
  have hversion : Manifest.versionOf source s = p.scalar.value := by
    obtain ⟨es, cs', hes, hcs', hy'⟩ := Manifest.stated_eq_ok hs
    rw [Value.get?, hes] at hcs
    obtain rfl : cs' = cs := Value.mapping.inj (Option.some.inj (hcs'.symm.trans hcs))
    obtain rfl : s.value = y := Option.some.inj (hy'.symm.trans hy)
    cases s with
    | string t => exact hleaf.2 t rfl
    | number n => rw [Manifest.versionOf, hfind]; rfl
  refine ⟨hversion, ?_⟩
  by_cases hv : p.scalar.value = v.dotted
  · have hself : p.located.before ++ p.located.style.encode v.dotted ++ p.located.after = source :=
      Located.replaced_self hfind hv
    rw [hself, hload, hversion, hv]
  · obtain ⟨x', hx', hs'⟩ := hnew hv
    rw [Manifest.load, Manifest.loadWith, hx']
    dsimp only
    rw [hs']
    rfl

end Trace.StatesVersion

namespace Manifest

variable {source : Text} {m : Manifest} {p : Trace}

/-- In the ordinary layout the search comes to the line of the version exactly when it is in sight,
and then every version can be put in its place. -/
theorem rewrite_iff_inSight (hload : load source = .ok m) (hp : p.StatesVersion source)
    (hline : ∀ c ∈ p.field.rest, breaksLine c = false) :
    Located.find source = .ok p.located ∧ (∀ v : Triple, m.rewrite v.dotted = .ok
      ⟨p.located.before ++ p.located.style.encode v.dotted ++ p.located.after, v.dotted⟩) ↔
    InSight p.line.indent p.above := by
  obtain ⟨x, s, hx, -, rfl⟩ := loadWith_eq_ok hload
  obtain ⟨d, hd, -⟩ := bind_eq_ok hx
  have hthrough := hp.through hline hd
  rw [← Located.find_eq_located_iff hthrough, and_iff_left_iff_imp]
  intro hfind v
  obtain ⟨hversion, hnew⟩ := hp.load_replaced hline hthrough hfind hload v
  have hlocate : locate ⟨source, versionOf source s⟩ = .ok p.located := by
    rw [locate, hfind]
    exact if_pos hversion.symm
  rw [load] at hnew
  rw [rewrite, rewriteWith, hlocate]
  dsimp only
  rw [hnew]
  exact if_pos rfl

set_option maxRecDepth 10000 in
theorem rewrite_iff_inSight_quoted :
    let source := ("name: demo\ncontext: # about\n  # the release\n  title: \"a\n    b\"\n" ++
      "  version: '1.2' # now\nextra: \x7bversion: 3\x7d\n").toList
    let p : Trace :=
      { above := Line.ofText "name: demo\n".toList ++ ⟨[], "context: # about".toList, ['\n']⟩ ::
          Line.ofText "  # the release\n  title: \"a\n    b\"\n".toList
        line := ⟨[], "  version: '1.2' # now".toList, ['\n']⟩
        below := Line.ofText "extra: \x7bversion: 3\x7d\n".toList
        field := ⟨versionKey, "version:".toList, " '1.2' # now".toList⟩
        scalar :=
          ⟨[' '], Style.single.encode "1.2".toList, " # now".toList, .single, "1.2".toList⟩ }
    load source = .ok ⟨source, "1.2".toList⟩ ∧ p.StatesVersion source ∧
      (∀ c ∈ p.field.rest, breaksLine c = false) ∧ InSight p.line.indent p.above ∧
      Located.find source = .ok p.located ∧ ∀ v : Triple, rewrite v.dotted ⟨source, "1.2".toList⟩ =
        .ok ⟨p.located.before ++ p.located.style.encode v.dotted ++ p.located.after, v.dotted⟩ := by
  intro source p
  have hload : load source = .ok ⟨source, "1.2".toList⟩ := eq_ok_of_toOption (by decide +kernel)
  have hline : ∀ c ∈ p.field.rest, breaksLine c = false := by
    simp [p, breaksLine, isBreak]
  have hsight : InSight p.line.indent p.above :=
    .mk (by decide +kernel) (by decide +kernel) (by decide +kernel) rfl rfl
      ⟨by decide +kernel, by decide +kernel, by decide +kernel⟩
  let emitted : List Token := [.value, .scalar versionKey .plain, .key,
    .scalar "a b".toList .doubleQuoted, .value, .scalar "title".toList .plain, .key,
    .blockMappingStart, .value, .scalar contextKey .plain, .key, .scalar "demo".toList .plain,
    .value, .scalar "name".toList .plain, .key, .blockMappingStart]
  let later : List Token := [.blockEnd, .key, .scalar "extra".toList .plain, .value,
    .flowMappingStart, .key, .scalar versionKey .plain, .value, .scalar "3".toList .plain,
    .flowMappingEnd, .blockEnd]
  let ts : List Token := emitted.reverse ++ .scalar "1.2".toList .singleQuoted :: later
  have hts : Token.ofText source = .ok ts := eq_ok_of_toOption (by decide +kernel)
  obtain ⟨q, hreads, hawaits, hrest, hemitted⟩ :=
    Layout.exists_awaitsScalar_of_after (unifyBreaks source)
      " '1.2' # now\nextra: \x7bversion: 3\x7d\n".toList emitted 10 (by decide +kernel)
  have hroot : Composition.Enters ts [] _ _ := .root (.implicit (by decide)) rfl rfl
  have hcontext := (hroot.past rfl rfl).into rfl
  have hversion := hcontext.past rfl rfl
  have hscalar : HasScalar source contextKey versionKey "1.2".toList .singleQuoted
      " '1.2' # now\nextra: \x7bversion: 3\x7d\n".toList :=
    .mk hts hreads hawaits hrest (by rw [hemitted]) hversion rfl
  have hp : p.StatesVersion source :=
    ⟨by decide +kernel, rfl, rfl, rfl, by simp [p, Text.isGap], .single _, hscalar⟩
  obtain ⟨hfind, hrewrite⟩ := (rewrite_iff_inSight hload hp hline).mpr hsight
  exact ⟨hload, hp, hline, hsight, hfind, hrewrite⟩

set_option maxRecDepth 10000 in
/-- The quoted text goes on without indentation, and the search ends there. -/
theorem rewrite_below_continued_quotes :
    let source := "context:\n  a: \"x\ny\"\n  version: 1.2.3\n".toList
    let p : Trace :=
      { above := Line.ofText "context:\n  a: \"x\ny\"\n".toList
        line := ⟨[], "  version: 1.2.3".toList, ['\n']⟩
        below := []
        field := ⟨versionKey, "version:".toList, " 1.2.3".toList⟩
        scalar := ⟨[' '], "1.2.3".toList, [], .plain, "1.2.3".toList⟩ }
    load source = .ok ⟨source, "1.2.3".toList⟩ ∧ p.StatesVersion source ∧
      (∀ c ∈ p.field.rest, breaksLine c = false) ∧
      rewrite "1.3.0".toList ⟨source, "1.2.3".toList⟩ =
        .error (.layout (.unlocated .noVersionLine)) := by
  intro source p
  have hload : load source = .ok ⟨source, "1.2.3".toList⟩ := eq_ok_of_toOption (by decide +kernel)
  have hline : ∀ c ∈ p.field.rest, breaksLine c = false := by
    simp [p, breaksLine, isBreak]
  let emitted : List Token := [.value, .scalar versionKey .plain, .key,
    .scalar "x y".toList .doubleQuoted, .value, .scalar "a".toList .plain, .key,
    .blockMappingStart, .value, .scalar contextKey .plain, .key, .blockMappingStart]
  let ts : List Token :=
    emitted.reverse ++ .scalar "1.2.3".toList .plain :: [.blockEnd, .blockEnd]
  have hts : Token.ofText source = .ok ts := eq_ok_of_toOption (by decide +kernel)
  obtain ⟨q, hreads, hawaits, hrest, hemitted⟩ :=
    Layout.exists_awaitsScalar_of_after (unifyBreaks source) " 1.2.3\n".toList emitted 7
      (by decide +kernel)
  have hroot : Composition.Enters ts [] _ _ := .root (.implicit (by decide)) rfl rfl
  have hversion := (hroot.into rfl).past rfl rfl
  have hscalar : HasScalar source contextKey versionKey "1.2.3".toList .plain " 1.2.3\n".toList :=
    .mk hts hreads hawaits hrest (by rw [hemitted]) hversion rfl
  have hlast : ∀ c ∈ "1.2.3".toList.getLast?, Text.isGap c = false := by simp [Text.isGap]
  have hp : p.StatesVersion source :=
    ⟨by decide +kernel, rfl, rfl, rfl, by simp [p, Text.isGap], .plain rfl hlast, hscalar⟩
  have hfind : Located.find source = .error .noVersionLine := by decide +kernel
  refine ⟨hload, hp, hline, ?_⟩
  rw [rewrite, rewriteWith, locate, hfind]

end Manifest
end VersionDrift
