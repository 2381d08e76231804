import VersionDrift.Proofs.Yaml.Moves
import VersionDrift.Proofs.Yaml.Progress
import VersionDrift.Proofs.Yaml.Replaced

/-!
# After the colon of a key

After the colon of a key no other key may begin on the line, and no block collection. The
token that stands there is a scalar, a property, an alias or one of a flow collection;
nothing is put before it later.
-/

set_option autoImplicit false

namespace VersionDrift.Yaml

theorem skipSpace_blanks {gap : Text} (hgap : ∀ c ∈ gap, Text.isGap c = true) (inFlow : Bool)
    (t : Text) (line column : Nat) :
    skipSpace inFlow (gap ++ t) line column false false =
      skipSpace inFlow t line (column + gap.length) false false := by
  induction gap generalizing column with
  | nil => rfl
  | cons c gap ih =>
    have hrest := ih (fun d hd => hgap d (List.mem_cons_of_mem _ hd)) (column + 1)
    have hc := hgap c List.mem_cons_self
    simp only [Text.isGap, Bool.or_eq_true, decide_eq_true_eq] at hc
    rw [List.cons_append, List.length_cons, ← Nat.add_assoc, Nat.add_right_comm, ← hrest]
    rcases hc with rfl | rfl <;> cases inFlow <;> rfl

theorem skipSpace_token {c : Char} (hblank : isBlank c = false) (hbreak : isBreak c = false)
    (hsharp : c ≠ '#') (inFlow : Bool) (t : Text) (line : Nat) {column : Nat} (hcolumn : 0 < column)
    (keyAllowed : Bool) : skipSpace inFlow (c :: t) line column keyAllowed false =
      (⟨c :: t, line, column⟩, keyAllowed) := by
  simp only [isBlank, Bool.or_eq_false_iff, decide_eq_false_iff_not] at hblank
  simp [skipSpace, hblank, hbreak, hsharp, Nat.pos_iff_ne_zero.mp hcolumn]

namespace Layout

theorem closedAt_of_le {column : Nat} {columns : List Nat} (h : ∀ c ∈ columns.head?, c ≤ column) :
    closedAt column columns = (columns, 0) := by
  cases columns with
  | nil => rfl
  | cons c columns => exact if_neg (Nat.not_lt.mpr (h c rfl))

theorem closeTo_of_le {s : Layout} {column : Nat} (h : ∀ c ∈ s.columns.head?, c ≤ column) :
    s.closeTo column = s := by
  unfold closeTo
  split
  · rfl
  · rw [closedAt_of_le h]
    rfl

theorem tokenHere_cons {s q : Layout} {c : Char} {t : Text} (hq : s.dropStale = .ok q)
    (hrest : s.cursor.rest = c :: t) : s.tokenHere =
      (q.closeTo s.cursor.column).token c t >>= fun r => .ok (some r) := by
  have hclosed : (q.closeTo s.cursor.column).cursor.rest = c :: t := by
    rw [closeTo_cursor, Steady.dropStale.cursor_eq hq, hrest]
  rw [tokenHere, hq]
  simp only [ok_bind, Steady.dropStale.cursor_eq hq, hclosed]
  rfl

theorem token_of_startsPlain {s : Layout} {c : Char} {t : Text} (hcolumn : s.cursor.column ≠ 0)
    (houter : s.outer = []) (hstart : startsPlain false c t = true)
    (hdash : c = '-' → atSpace t = false) : s.token c t = s.plainScalar := by
  have hflow : s.inFlow = false := by simp [houter]
  have hother (d : Char) (hd : startsPlain false d t = false) : c ≠ d := by
    rintro rfl
    rw [hstart] at hd
    cases hd
  have hspace (d : Char) (hd : d = '?' ∨ d = ':') (hc : c = d) : atSpace t = false := by
    subst hc
    rcases hd with rfl | rfl <;> simpa [startsPlain] using hstart
  unfold token
  simp only [hflow, hstart, hcolumn, hother '%' rfl, hother '[' rfl, hother '\x7b' rfl,
    hother ']' rfl, hother '\x7d' rfl, hother ',' rfl, hother '*' rfl, hother '&' rfl,
    hother '!' rfl, hother '|' rfl, hother '>' rfl, hother '\'' rfl, hother '"' rfl, decide_false,
    Bool.false_and, Bool.and_false, Bool.false_or, Bool.false_eq_true, if_false, if_true]
  rw [if_neg (by simpa using hdash), if_neg (by simpa using hspace '?' (.inl rfl)),
    if_neg (by simpa using hspace ':' (.inr rfl))]

def isStray (t : Token) : Bool := t = .flowSequenceEnd || t = .flowMappingEnd || t = .flowEntry

/-- Outside of flow collections, inside a line and to the right of the open block collections, where
no key may begin: the layout after the colon of a key. -/
structure AwaitsScalar (s : Layout) : Prop where
  candidate : s.candidate = none
  outer : s.outer = []
  keyAllowed : s.keyAllowed = false
  inside : ∀ c ∈ s.columns.head?, c < s.cursor.column
  column : 0 < s.cursor.column

instance (s : Layout) : Decidable s.AwaitsScalar :=
  decidable_of_iff (s.candidate = none ∧ s.outer = [] ∧ s.keyAllowed = false ∧
      (∀ c ∈ s.columns.head?, c < s.cursor.column) ∧ 0 < s.cursor.column)
    ⟨fun ⟨h1, h2, h3, h4, h5⟩ => ⟨h1, h2, h3, h4, h5⟩,
      fun ⟨h1, h2, h3, h4, h5⟩ => ⟨h1, h2, h3, h4, h5⟩⟩

theorem exists_awaitsScalar_of_after (t rest : Text) (us : List Token) (n : Nat)
    (h : (after? t n).any
      (fun s => s.AwaitsScalar && s.cursor.rest = rest && s.emitted = us) = true) :
    ∃ s, Reads t s ∧ s.AwaitsScalar ∧ s.cursor.rest = rest ∧ s.emitted = us := by
  obtain ⟨s, hs, h⟩ := Option.any_eq_true _ _ |>.mp h
  obtain ⟨⟨hawaits, hrest⟩, hemitted⟩ :
      (s.AwaitsScalar ∧ s.cursor.rest = rest) ∧ s.emitted = us := by
    simpa using h
  exact ⟨s, reads_of_after hs, hawaits, hrest, hemitted⟩

namespace AwaitsScalar

variable {s : Layout} {c : Char} {t gap : Text}

theorem dropStale (h : s.AwaitsScalar) : s.dropStale = .ok s := by
  obtain ⟨cursor, columns, candidate, outer, keyAllowed, emitted⟩ := s
  obtain ⟨hcandidate, houter, -, -, -⟩ := h
  dsimp only at hcandidate houter
  subst hcandidate houter
  rfl

theorem next (h : s.AwaitsScalar) (hgap : ∀ c ∈ gap, Text.isGap c = true)
    (hrest : s.cursor.rest = gap ++ c :: t) (hblank : isBlank c = false)
    (hbreak : isBreak c = false) (hsharp : c ≠ '#') :
    (s.withCursor ⟨c :: t, s.cursor.line, s.cursor.column + gap.length⟩).AwaitsScalar ∧
      s.next = (s.withCursor ⟨c :: t, s.cursor.line, s.cursor.column + gap.length⟩).token c t >>=
        fun r => .ok (some r) := by
  have hhere : (s.withCursor ⟨c :: t, s.cursor.line, s.cursor.column + gap.length⟩).AwaitsScalar :=
    ⟨h.candidate, h.outer, h.keyAllowed, fun d hd => Nat.lt_add_right _ (h.inside d hd),
      Nat.lt_add_right _ h.column⟩
  refine ⟨hhere, ?_⟩
  have hskip : skipSpace s.inFlow s.cursor.rest s.cursor.line s.cursor.column s.keyAllowed false =
      (⟨c :: t, s.cursor.line, s.cursor.column + gap.length⟩, s.keyAllowed) := by
    rw [hrest, h.keyAllowed, skipSpace_blanks hgap,
      skipSpace_token hblank hbreak hsharp _ _ _ (Nat.lt_add_right _ h.column)]
  have hskipped : s.skipped =
      s.withCursor ⟨c :: t, s.cursor.line, s.cursor.column + gap.length⟩ :=
    congrArg (fun p => ({ s with cursor := p.1, keyAllowed := p.2 } : Layout)) hskip
  rw [Layout.next, hskipped, tokenHere_cons hhere.dropStale rfl,
    closeTo_of_le fun d hd => Nat.le_of_lt (hhere.inside d hd)]

theorem run_token (h : s.AwaitsScalar) (hgap : ∀ c ∈ gap, Text.isGap c = true)
    (hrest : s.cursor.rest = gap ++ c :: t) (hblank : isBlank c = false)
    (hbreak : isBreak c = false) (hsharp : c ≠ '#') {r : Layout}
    (hr : (s.withCursor ⟨c :: t, s.cursor.line, s.cursor.column + gap.length⟩).token c t = .ok r)
    (n : Nat) : s.run (n + 1) = r.run n := by
  rw [run, (h.next hgap hrest hblank hbreak hsharp).2, hr]
  rfl

theorem noteCandidate (h : s.AwaitsScalar) : s.noteCandidate = .ok s := by
  rw [Layout.noteCandidate, h.keyAllowed]
  rfl

theorem quotedScalar (h : s.AwaitsScalar) {single : Bool} {text : Text} {d : Cursor}
    (hread : QuotedScalar.read single s.cursor = .ok (text, d)) :
    s.quotedScalar single = .ok
      ((s.emit (.scalar text (if single then .singleQuoted else .doubleQuoted))).withCursor d) := by
  unfold Layout.quotedScalar
  rw [h.noteCandidate]
  change QuotedScalar.read single s.cursor >>= _ = _
  rw [hread]
  obtain ⟨cursor, columns, candidate, outer, keyAllowed, emitted⟩ := s
  have hallowed : keyAllowed = false := h.keyAllowed
  rw [hallowed]
  rfl

theorem quotedScalar_eq_ok (h : s.AwaitsScalar) {single : Bool} {r : Layout}
    (hr : s.quotedScalar single = .ok r) :
    ∃ text d, QuotedScalar.read single s.cursor = .ok (text, d) ∧
      r = ((s.allowKey false).emit
        (.scalar text (if single then .singleQuoted else .doubleQuoted))).withCursor d := by
  obtain ⟨q, hq, hr⟩ := bind_eq_ok hr
  obtain rfl := Except.ok.inj (h.noteCandidate.symm.trans hq)
  obtain ⟨⟨text, d⟩, hd, hr⟩ := bind_eq_ok hr
  exact ⟨text, d, hd, (Except.ok.inj hr).symm⟩

theorem plainScalar (h : s.AwaitsScalar) {p : PlainScalar}
    (hread : PlainScalar.read false (s.columns.head?.elim 0 (· + 1)) s.cursor = .ok p) :
    s.plainScalar = .ok
      (((s.allowKey p.brokenOff).emit (.scalar p.text .plain)).withCursor p.rest) := by
  unfold Layout.plainScalar
  rw [h.noteCandidate]
  have hflow : s.inFlow = false := by simp [h.outer]
  change PlainScalar.read s.inFlow _ s.cursor >>= _ = _
  rw [hflow, hread]
  rfl

theorem plainScalar_eq_ok (h : s.AwaitsScalar) {r : Layout} (hr : s.plainScalar = .ok r) :
    ∃ p, PlainScalar.read false (s.columns.head?.elim 0 (· + 1)) s.cursor = .ok p ∧
      r = ((s.allowKey p.brokenOff).emit (.scalar p.text .plain)).withCursor p.rest := by
  obtain ⟨q, hq, hrest⟩ := bind_eq_ok hr
  obtain rfl := Except.ok.inj (h.noteCandidate.symm.trans hq)
  obtain ⟨p, hp, -⟩ := bind_eq_ok hrest
  have hflow : s.inFlow = false := by simp [h.outer]
  rw [hflow] at hp
  exact ⟨p, hp, Except.ok.inj (hr.symm.trans (h.plainScalar hp))⟩

theorem next_eq_error_of_colon {line column : Nat} (hcandidate : s.candidate = none)
    (houter : s.outer = []) (hallowed : s.keyAllowed = false) (hcolumn : 0 < column)
    (ht : atSpace t = true) (hcursor : s.cursor = ⟨':' :: t, line, column⟩) :
    s.next = .error .misplacedValue := by
  have hskip : skipSpace s.inFlow s.cursor.rest s.cursor.line s.cursor.column s.keyAllowed false =
      (s.cursor, s.keyAllowed) := by
    rw [hcursor]
    exact skipSpace_token rfl rfl (by decide) _ t line hcolumn _
  have hskipped : s.skipped = s :=
    congrArg (fun p => ({ s with cursor := p.1, keyAllowed := p.2 } : Layout)) hskip
  have hstale : s.dropStale = .ok s := by
    obtain ⟨cursor, columns, candidate, outer, keyAllowed, emitted⟩ := s
    dsimp only at hcandidate houter
    subst hcandidate houter
    rfl
  have hclosed (k : Nat) : (s.closeTo k).token ':' t = .error .misplacedValue := by
    have hvalue : (s.closeTo k).mappingValue = .error .misplacedValue := by
      unfold closeTo mappingValue openValue
      simp [hcandidate, hallowed, houter]
    unfold token
    simp [ht, hvalue]
  rw [Layout.next, hskipped, tokenHere_cons hstale (by rw [hcursor]), hclosed]
  rfl

theorem dropCandidate (h : s.AwaitsScalar) : s.dropCandidate = .ok s := by
  rw [Layout.dropCandidate, h.candidate]

theorem flowEnd (h : s.AwaitsScalar) (u : Token) :
    s.flowEnd u = .ok ((s.allowKey false).take 1 u) := by
  have hclosed : s.closeFlow = s := by rw [closeFlow, h.outer]
  rw [Layout.flowEnd, h.dropCandidate]
  show Except.ok ((s.closeFlow.allowKey false).take 1 u) = _
  rw [hclosed]

theorem flowSeparator (h : s.AwaitsScalar) :
    s.flowSeparator = .ok ((s.allowKey true).take 1 .flowEntry) := by
  rw [Layout.flowSeparator, h.dropCandidate]
  rfl

theorem over_take (h : s.AwaitsScalar) (b : Bool) (k : Nat) (u : Token) :
    Over (u :: s.emitted) ((s.allowKey b).take k u) where
  emitted := List.suffix_rfl
  keys := by
    show ∀ key, some key ∈ s.candidate :: s.outer → _
    rw [h.candidate, h.outer]
    simp

theorem openEntry (h : s.AwaitsScalar) (refusal : Error) (u : Token) :
    s.openEntry refusal u = .error refusal := by
  simp [Layout.openEntry, h.outer, h.keyAllowed]

theorem mappingValue (h : s.AwaitsScalar) : s.mappingValue = .error .misplacedValue := by
  have hvalue : s.openValue = .error .misplacedValue := by
    simp [openValue, h.candidate, h.outer, h.keyAllowed]
  rw [Layout.mappingValue, hvalue]
  rfl

/-- A character that begins no quotes, property, block scalar, comment or flow collection begins a
plain scalar, or it is an error, or it is a token that belongs to a flow collection. -/
theorem token_cases (h : s.AwaitsScalar) (hbegins : Scalar.beginsNoValue c = false) :
    (startsPlain false c t = true ∧ (c = '-' → atSpace t = false)) ∨
      (∃ e, s.token c t = .error e) ∨
      ∃ u q, isStray u = true ∧ s.token c t = .ok q ∧ Over (u :: s.emitted) q := by
  simp only [Scalar.beginsNoValue, Bool.or_eq_false_iff, decide_eq_false_iff_not, List.mem_cons,
    List.not_mem_nil, or_false, not_or] at hbegins
  obtain ⟨⟨h1, h2, h3, h4, h5, h6, h7, h8, h9, h10⟩, hblank⟩ := hbegins
  have hcolumn : s.cursor.column ≠ 0 := Nat.pos_iff_ne_zero.mp h.column
  have hflow : s.inFlow = false := by simp [h.outer]
  by_cases hsequence : c = ']'
  · subst hsequence
    refine .inr (.inr ⟨.flowSequenceEnd, _, rfl, ?_, h.over_take false 1 _⟩)
    rw [← h.flowEnd]
    simp [token]
  by_cases hmapping : c = '}'
  · subst hmapping
    refine .inr (.inr ⟨.flowMappingEnd, _, rfl, ?_, h.over_take false 1 _⟩)
    rw [← h.flowEnd]
    simp [token]
  by_cases hcomma : c = ','
  · subst hcomma
    refine .inr (.inr ⟨.flowEntry, _, rfl, ?_, h.over_take true 1 _⟩)
    rw [← h.flowSeparator]
    simp [token]
  by_cases hspace : atSpace t = true ∧ (c = '-' ∨ c = '?' ∨ c = ':')
  · obtain ⟨hspace, rfl | rfl | rfl⟩ := hspace
    · refine .inr (.inl ⟨.misplacedEntry, ?_⟩)
      simp [token, hcolumn, hspace, sequenceEntry, h.openEntry]
    · refine .inr (.inl ⟨.misplacedKey, ?_⟩)
      simp [token, hspace, explicitKey, h.openEntry]
    · refine .inr (.inl ⟨.misplacedValue, ?_⟩)
      simp [token, hspace, h.mappingValue]
  have hword (d : Char) (hd : d = '-' ∨ d = '?' ∨ d = ':') (hc : c = d) : atSpace t = false := by
    subst hc
    simpa [hd] using hspace
  by_cases hstart : startsPlain false c t = true
  · exact .inl ⟨hstart, hword '-' (by simp)⟩
  · refine .inr (.inl ⟨.unexpectedCharacter, ?_⟩)
    unfold token
    simp only [hcolumn, hflow, hstart, hsequence, hmapping, hcomma, h2, h3, h4, h5, h6, h7, h8, h9,
      h10, decide_false, Bool.false_and, Bool.false_or, Bool.false_eq_true, if_false]
    rw [if_neg (by simpa using hword '-' (by simp)), if_neg (by simpa using hword '?' (by simp)),
      if_neg (by simpa using hword ':' (by simp))]

end AwaitsScalar

def Puts (s : Layout) (f : Except Error Layout) : Prop :=
  ∀ r, f = .ok r →
    ∃ u, u ≠ .key ∧ u ≠ .blockEnd ∧ r.emitted = u :: s.emitted ∧ Over (u :: s.emitted) r

namespace Puts

variable {s : Layout} {f g prep : Except Error Layout}

theorem error {e : Error} : s.Puts (.error e) := by
  intro r h
  cases h

theorem ite {p : Prop} [Decidable p] (hf : s.Puts f) (hg : s.Puts g) :
    s.Puts (if p then f else g) := by
  split
  · exact hf
  · exact hg

theorem over_emit (h : s.AwaitsScalar) (u : Token) (c : Cursor) (b : Bool) :
    Over (u :: s.emitted) (((s.allowKey b).emit u).withCursor c) where
  emitted := List.suffix_rfl
  keys := by
    show ∀ key, some key ∈ s.candidate :: s.outer → _
    rw [h.candidate, h.outer]
    simp

theorem read {α : Type} (h : s.AwaitsScalar) (read : Layout → Except Error (α × Cursor))
    (token : α → Token) (b : Bool) (hprep : prep = .ok s)
    (htoken : ∀ a, token a ≠ .key ∧ token a ≠ .blockEnd) :
    s.Puts (prep >>= fun q => read q >>= fun p =>
      .ok (((q.allowKey b).emit (token p.1)).withCursor p.2)) := by
  intro r hr
  obtain ⟨q, hq, hr⟩ := bind_eq_ok hr
  obtain rfl := Except.ok.inj (hprep.symm.trans hq)
  obtain ⟨⟨a, d⟩, -, hr⟩ := bind_eq_ok hr
  cases hr
  obtain ⟨hkey, hend⟩ := htoken a
  exact ⟨token a, hkey, hend, rfl, over_emit h (token a) d b⟩

theorem flowStart (h : s.AwaitsScalar) {u : Token} (hkey : u ≠ .key) (hend : u ≠ .blockEnd) :
    s.Puts (s.flowStart u) := by
  intro r hr
  rw [Layout.flowStart, h.noteCandidate] at hr
  cases hr
  refine ⟨u, hkey, hend, rfl, List.suffix_rfl, ?_⟩
  show ∀ key, some key ∈ none :: s.candidate :: s.outer → _
  rw [h.candidate, h.outer]
  simp

theorem flowEnd (h : s.AwaitsScalar) {u : Token} (hkey : u ≠ .key) (hend : u ≠ .blockEnd) :
    s.Puts (s.flowEnd u) := by
  intro r hr
  rw [h.flowEnd] at hr
  cases hr
  exact ⟨u, hkey, hend, rfl, h.over_take false 1 u⟩

theorem flowSeparator (h : s.AwaitsScalar) : s.Puts s.flowSeparator := by
  intro r hr
  rw [h.flowSeparator] at hr
  cases hr
  exact ⟨.flowEntry, by decide, by decide, rfl, h.over_take true 1 _⟩

theorem sequenceEntry (h : s.AwaitsScalar) : s.Puts s.sequenceEntry := by
  rw [Layout.sequenceEntry, h.openEntry]
  exact .error

theorem explicitKey (h : s.AwaitsScalar) : s.Puts s.explicitKey := by
  rw [Layout.explicitKey, h.openEntry]
  exact .error

theorem mappingValue (h : s.AwaitsScalar) : s.Puts s.mappingValue := by
  rw [h.mappingValue]
  exact .error

theorem aliasOrAnchor (h : s.AwaitsScalar) {token : Text → Token}
    (htoken : ∀ name, token name ≠ .key ∧ token name ≠ .blockEnd) :
    s.Puts (s.aliasOrAnchor token) :=
  read h (fun q => Property.anchorName q.cursor) token false h.noteCandidate htoken

theorem tagProperty (h : s.AwaitsScalar) : s.Puts s.tagProperty := by
  intro r hr
  obtain ⟨q, hq, hr⟩ := bind_eq_ok hr
  obtain rfl := Except.ok.inj (h.noteCandidate.symm.trans hq)
  obtain ⟨⟨u, d⟩, hd, hr⟩ := bind_eq_ok hr
  cases hr
  obtain ⟨handle, suffix, rfl⟩ := Property.token_of_tag hd
  exact ⟨.tag handle suffix, nofun, nofun, rfl, over_emit h _ d false⟩

theorem blockScalar (h : s.AwaitsScalar) (literal : Bool) : s.Puts (s.blockScalar literal) :=
  read h (fun q => BlockScalar.read literal q.columns.head? q.cursor)
    (fun text => .scalar text (if literal then .literal else .folded)) true h.dropCandidate
    fun _ => ⟨nofun, nofun⟩

theorem quotedScalar (h : s.AwaitsScalar) (single : Bool) : s.Puts (s.quotedScalar single) :=
  read h (fun q => QuotedScalar.read single q.cursor)
    (fun text => .scalar text (if single then .singleQuoted else .doubleQuoted)) false
    h.noteCandidate fun _ => ⟨nofun, nofun⟩

theorem plainScalar (h : s.AwaitsScalar) : s.Puts s.plainScalar := by
  intro r hr
  obtain ⟨q, hq, hr⟩ := bind_eq_ok hr
  obtain rfl := Except.ok.inj (h.noteCandidate.symm.trans hq)
  obtain ⟨p, -, hr⟩ := bind_eq_ok hr
  cases hr
  exact ⟨.scalar p.text .plain, nofun, nofun, rfl, over_emit h _ p.rest p.brokenOff⟩

end Puts

/-- What stands on the line after a colon neither makes a key nor ends a block. -/
theorem AwaitsScalar.puts_token {s : Layout} (h : s.AwaitsScalar) (c : Char) (t : Text) :
    s.Puts (s.token c t) := by
  have hmargin (p : Prop) [Decidable p] : (decide (s.cursor.column = 0) && decide p) = false := by
    simp [Nat.pos_iff_ne_zero.mp h.column]
  unfold token
  simp only [hmargin, Bool.false_and, Bool.false_eq_true, if_false]
  exact .ite (.flowStart h nofun nofun) <| .ite (.flowStart h nofun nofun) <|
    .ite (.flowEnd h nofun nofun) <| .ite (.flowEnd h nofun nofun) <| .ite (.flowSeparator h) <|
    .ite (.sequenceEntry h) <| .ite (.explicitKey h) <| .ite (.mappingValue h) <|
    .ite (.aliasOrAnchor h fun _ => ⟨nofun, nofun⟩) <|
    .ite (.aliasOrAnchor h fun _ => ⟨nofun, nofun⟩) <| .ite (.tagProperty h) <|
    .ite (.blockScalar h true) <| .ite (.blockScalar h false) <| .ite (.quotedScalar h true) <|
    .ite (.quotedScalar h false) <| .ite (.plainScalar h) .error

theorem AwaitsScalar.exists_step {s : Layout} {gap t : Text} {c : Char} {n : Nat}
    {ts : List Token} (h : s.AwaitsScalar) (hgap : ∀ c ∈ gap, Text.isGap c = true)
    (hrest : s.cursor.rest = gap ++ c :: t) (hblank : isBlank c = false)
    (hbreak : isBreak c = false) (hsharp : c ≠ '#') (hrun : s.run n = .ok ts) :
    ∃ q r : Layout, q.AwaitsScalar ∧ q.emitted = s.emitted ∧ q.cursor.rest = c :: t ∧
      q.token c t = .ok r ∧ s.next = .ok (some r) ∧ ∃ k, r.run k = .ok ts := by
  obtain ⟨hhere, hnext⟩ := h.next hgap hrest hblank hbreak hsharp
  cases n with
  | zero => cases hrun
  | succ n =>
    obtain ⟨o, ho, hrun⟩ := bind_eq_ok hrun
    have ho' := ho
    rw [hnext] at ho
    obtain ⟨r, hr, ho⟩ := bind_eq_ok ho
    cases ho
    exact ⟨_, r, hhere, rfl, rfl, hr, ho', n, hrun⟩

theorem AwaitsScalar.puts_next {s r : Layout} {gap t : Text} {c : Char} (h : s.AwaitsScalar)
    (hgap : ∀ c ∈ gap, Text.isGap c = true) (hrest : s.cursor.rest = gap ++ c :: t)
    (hblank : isBlank c = false) (hbreak : isBreak c = false) (hsharp : c ≠ '#')
    (hr : s.next = .ok (some r)) :
    ∃ u, u ≠ .key ∧ u ≠ .blockEnd ∧ r.emitted = u :: s.emitted ∧ Over (u :: s.emitted) r := by
  obtain ⟨hhere, hnext⟩ := h.next hgap hrest hblank hbreak hsharp
  rw [hnext] at hr
  obtain ⟨q, hq, hr⟩ := bind_eq_ok hr
  cases hr
  exact hhere.puts_token c t r hq

/-- Where more than a comment follows on the line, the next token is neither a key nor the end of a
block. -/
theorem AwaitsScalar.exists_token {s : Layout} {gap t : Text} {c : Char} {n : Nat}
    {ts : List Token} (h : s.AwaitsScalar) (hgap : ∀ c ∈ gap, Text.isGap c = true)
    (hrest : s.cursor.rest = gap ++ c :: t) (hblank : isBlank c = false)
    (hbreak : isBreak c = false) (hsharp : c ≠ '#') (hrun : s.run n = .ok ts) :
    ∃ u, u ≠ .key ∧ u ≠ .blockEnd ∧ (u :: s.emitted).reverse <+: ts := by
  obtain ⟨_, r, -, -, -, -, hnext, k, hrun⟩ := h.exists_step hgap hrest hblank hbreak hsharp hrun
  obtain ⟨u, hkey, hend, -, hover⟩ := h.puts_next hgap hrest hblank hbreak hsharp hnext
  exact ⟨u, hkey, hend, hover.of_run hrun⟩

end Layout
end VersionDrift.Yaml
