import VersionDrift.Proofs.Yaml.Readers

/-!
# Tokens of texts with a common beginning

A step of the layout settles it, reads at the cursor and notes what it has read. What
it settles depends on the line and the column of the cursor and not on its text. So
tokens that end before the fork are the same in both texts.
-/

set_option autoImplicit false

namespace VersionDrift.Yaml
namespace Layout

def withCursor (c : Cursor) (s : Layout) : Layout := { s with cursor := c }

theorem withCursor_of_eq {s : Layout} {c : Cursor} (h : s.cursor = c) : s.withCursor c = s := by
  rw [← h]
  rfl

section

variable (s : Layout) (c : Cursor)

theorem insertAt_withCursor (position : Nat) (t : Token) :
    (s.withCursor c).insertAt position t = (s.insertAt position t).withCursor c := rfl

theorem openBlock_withCursor (column position : Nat) (t : Token) :
    (s.withCursor c).openBlock column position t =
      (s.openBlock column position t).withCursor c := by
  unfold openBlock
  have hflow : (s.withCursor c).inFlow = s.inFlow := rfl
  have hdeeper : (s.withCursor c).deeper column = s.deeper column := rfl
  rw [hflow, hdeeper]
  split <;> rfl

theorem closeTo_withCursor (column : Nat) :
    (s.withCursor c).closeTo column = (s.closeTo column).withCursor c := by
  unfold closeTo
  have hflow : (s.withCursor c).inFlow = s.inFlow := rfl
  rw [hflow]
  split <;> rfl

theorem closeAll_withCursor : (s.withCursor c).closeAll = s.closeAll.withCursor c := by
  unfold closeAll
  have hflow : (s.withCursor c).inFlow = s.inFlow := rfl
  rw [hflow]
  split <;> rfl

theorem closeFlow_withCursor : (s.withCursor c).closeFlow = s.closeFlow.withCursor c := by
  obtain ⟨cursor, columns, candidate, outer, keyAllowed, emitted⟩ := s
  cases outer <;> rfl

end

/-- The step keeps the cursor and does not depend on the text that is left. -/
def Steady (f : Layout → Except Error Layout) : Prop :=
  ∀ s c, c.line = s.cursor.line → c.column = s.cursor.column →
    f (s.withCursor c) = (f s).map (withCursor c)

namespace Steady

variable {f g : Layout → Except Error Layout} {s r : Layout}

theorem cursor_eq (hf : Steady f) (h : f s = .ok r) : r.cursor = s.cursor := by
  have hself := hf s s.cursor rfl rfl
  rw [withCursor_of_eq rfl, h] at hself
  have hr : r = r.withCursor s.cursor := Except.ok.inj hself
  have hcursor := congrArg Layout.cursor hr
  exact hcursor

theorem bind (hf : Steady f) (hg : Steady g) : Steady fun s => f s >>= g := by
  intro s c hline hcolumn
  dsimp only
  rw [hf s c hline hcolumn]
  cases hr : f s with
  | error e => rfl
  | ok r =>
    have hcursor := hf.cursor_eq hr
    exact hg r c (hcursor ▸ hline) (hcursor ▸ hcolumn)

theorem pure {g : Layout → Layout} (hg : ∀ s c, c.column = s.cursor.column →
    g (s.withCursor c) = (g s).withCursor c) : Steady fun s => .ok (g s) := by
  intro s c _ hcolumn
  exact congrArg Except.ok (hg s c hcolumn)

theorem ite {p : Layout → Bool} (hp : ∀ s c, p (s.withCursor c) = p s) (hf : Steady f)
    (hg : Steady g) : Steady fun s => if p s then f s else g s := by
  intro s c hline hcolumn
  dsimp only
  rw [hp]
  split
  · exact hf s c hline hcolumn
  · exact hg s c hline hcolumn

theorem error {e : Error} : Steady fun _ => .error e := by
  intro s c _ _
  rfl

theorem dropCandidate : Steady Layout.dropCandidate := by
  intro s c _ _
  obtain ⟨cursor, columns, candidate, outer, keyAllowed, emitted⟩ := s
  cases candidate with
  | none => rfl
  | some k =>
    cases hrequired : k.required <;>
      simp [Layout.dropCandidate, withCursor, hrequired]

theorem noteCandidate : Steady Layout.noteCandidate := by
  intro s c hline hcolumn
  unfold Layout.noteCandidate
  have hallowed : (s.withCursor c).keyAllowed = s.keyAllowed := rfl
  rw [hallowed]
  split
  · refine bind dropCandidate (g := fun s => .ok { s with
      candidate := some ⟨s.emitted.length, !s.inFlow && s.columns.head? = some s.cursor.column,
        s.cursor.line, s.cursor.column⟩ }) ?_ s c hline hcolumn
    intro s c hline hcolumn
    simp only [withCursor, inFlow, hline, hcolumn, map_ok]
  · rfl

theorem dropStale : Steady Layout.dropStale := by
  intro s c hline hcolumn
  unfold Layout.dropStale
  dsimp only [withCursor]
  rw [hline, hcolumn]
  cases s.outer.mapM (dropStaleKey s.cursor.line s.cursor.column) with
  | error e => rfl
  | ok outer =>
    cases dropStaleKey s.cursor.line s.cursor.column s.candidate with
    | error e => rfl
    | ok candidate => rfl

theorem closeAll_dropCandidate : Steady fun s => s.closeAll.dropCandidate :=
  bind (pure fun s c _ => closeAll_withCursor s c) dropCandidate

theorem openEntry (refusal : Error) (t : Token) : Steady (Layout.openEntry refusal t) :=
  ite (fun _ _ => rfl) error <| bind (pure fun s c hcolumn => by
    rw [← hcolumn]
    exact openBlock_withCursor s c ..) dropCandidate

theorem openValue : Steady Layout.openValue := by
  intro s c hline hcolumn
  unfold Layout.openValue
  have hcandidate : (s.withCursor c).candidate = s.candidate := rfl
  rw [hcandidate]
  split
  · rw [insertAt_withCursor, openBlock_withCursor]
    rfl
  · have hopen : Steady fun s => .ok ((s.openBlock s.cursor.column s.emitted.length
        .blockMappingStart).allowKey !s.inFlow) := by
      refine pure fun s c hcolumn => ?_
      rw [← hcolumn]
      exact congrArg (allowKey _) (openBlock_withCursor s c ..)
    have hvalue : Steady fun s => if !s.inFlow && !s.keyAllowed then .error .misplacedValue
        else .ok ((s.openBlock s.cursor.column s.emitted.length
          .blockMappingStart).allowKey !s.inFlow) :=
      ite (fun _ _ => rfl) error hopen
    exact hvalue s c hline hcolumn

end Steady

theorem dropCandidate_eq_ok {s r : Layout} (h : s.dropCandidate = .ok r) :
    r = { s with candidate := none } := by
  obtain ⟨cursor, columns, candidate, outer, keyAllowed, emitted⟩ := s
  cases candidate with
  | none =>
    cases h
    rfl
  | some k =>
    dsimp only [dropCandidate] at h
    split at h
    · cases h
    · cases h
      rfl

theorem noteCandidate_eq_ok {s r : Layout} (h : s.noteCandidate = .ok r) :
    ∃ k, r = { s with candidate := k } := by
  unfold noteCandidate at h
  split at h
  · obtain ⟨q, hq, h⟩ := bind_eq_ok h
    cases h
    rw [dropCandidate_eq_ok hq]
    exact ⟨_, rfl⟩
  · cases h
    exact ⟨s.candidate, rfl⟩

theorem dropStale_eq_ok {s r : Layout} (h : s.dropStale = .ok r) :
    ∃ k ks, r = { s with candidate := k, outer := ks } := by
  obtain ⟨ks, -, h⟩ := bind_eq_ok h
  obtain ⟨k, -, h⟩ := bind_eq_ok h
  cases h
  exact ⟨k, ks, rfl⟩

def Forked (X Y : Text) (s s' : Layout) : Prop :=
  ∃ c, s.cursor.Forked X Y c ∧ s' = s.withCursor c

/-- A successful step leaves at most `n` characters; and if it ends before the fork, the other one
gives the same and ends at the same place. -/
def Fork (X Y : Text) (n : Nat) (f f' : Except Error Layout) : Prop :=
  ∀ r, f = .ok r → r.cursor.rest.length ≤ n ∧
    (X.length < r.cursor.rest.length → ∃ r', f' = .ok r' ∧ r.Forked X Y r')

variable {X Y : Text} {s s' : Layout}

/-- What is settled, read and noted before the fork is the same. -/
theorem fork_of_steady {α : Type} {prep : Layout → Except Error Layout}
    (read : Layout → Cursor → Except Error (α × Cursor)) (note : α → Layout → Layout)
    (hprep : Steady prep)
    (hread : ∀ r c c', c.Forked X Y c' → Yaml.Fork X Y c.rest.length (read r c) (read r c'))
    (hcursor : ∀ r c, read (r.withCursor c) = read r)
    (hnote : ∀ a r c d, (note a (r.withCursor c)).withCursor d = (note a r).withCursor d)
    (h : s.Forked X Y s') :
    Fork X Y s.cursor.rest.length
      (prep s >>= fun r => read r r.cursor >>= fun p => .ok ((note p.1 r).withCursor p.2))
      (prep s' >>= fun r => read r r.cursor >>= fun p => .ok ((note p.1 r).withCursor p.2)) := by
  intro q hq
  obtain ⟨r, hr, hq⟩ := bind_eq_ok hq
  obtain ⟨⟨a, d⟩, hd, hq⟩ := bind_eq_ok hq
  cases hq
  have hrs := hprep.cursor_eq hr
  obtain ⟨c, hc, rfl⟩ := h
  rw [← hrs] at hc ⊢
  obtain ⟨hlength, hfork⟩ := hread r _ _ hc _ _ hd
  refine ⟨hlength, fun hlong => ?_⟩
  obtain ⟨-, hline, hcolumn⟩ := hc (Nat.lt_of_lt_of_le hlong hlength)
  rw [hrs] at hline hcolumn
  obtain ⟨d', hd', hforked⟩ := hfork hlong
  refine ⟨(note a r).withCursor d', ?_, d', hforked, rfl⟩
  have hprep' : prep (s.withCursor c) = .ok (r.withCursor c) := by
    rw [hprep s c hline hcolumn, hr]
    rfl
  have hread' : read (r.withCursor c) (r.withCursor c).cursor = .ok (a, d') := by
    rw [hcursor]
    exact hd'
  rw [hprep']
  change read (r.withCursor c) (r.withCursor c).cursor >>= _ = _
  rw [hread', ← hnote a r c d']
  rfl

theorem fork_take {prep : Layout → Except Error Layout} (hprep : Steady prep)
    (note : Layout → Layout)
    (hnote : ∀ r c d, (note (r.withCursor c)).withCursor d = (note r).withCursor d) (k : Nat)
    (h : s.Forked X Y s') :
    Fork X Y s.cursor.rest.length
      (prep s >>= fun r => .ok ((note r).withCursor (r.cursor.skip k)))
      (prep s' >>= fun r => .ok ((note r).withCursor (r.cursor.skip k))) :=
  fork_of_steady (fun _ c => .ok ((), c.skip k)) (fun _ => note) hprep
    (fun _ _ _ hc => .ok (Cursor.length_skip k _) (hc.skip k)) (fun _ _ => rfl)
    (fun _ r c d => hnote r c d) h

theorem fork_documentMark (t : Token) (h : s.Forked X Y s') :
    Fork X Y s.cursor.rest.length (s.documentMark t) (s'.documentMark t) :=
  fork_take .closeAll_dropCandidate (fun r => (r.allowKey false).emit t)
    (fun _ _ _ => rfl) 3 h

theorem fork_directiveLine (h : s.Forked X Y s') :
    Fork X Y s.cursor.rest.length s.directiveLine s'.directiveLine :=
  fork_of_steady (fun _ => Property.directive) (fun t r => (r.allowKey false).emit t)
    .closeAll_dropCandidate (fun _ _ _ hc => Property.fork_directive hc) (fun _ _ => rfl)
    (fun _ _ _ _ => rfl) h

theorem fork_flowStart (t : Token) (h : s.Forked X Y s') :
    Fork X Y s.cursor.rest.length (s.flowStart t) (s'.flowStart t) :=
  fork_take .noteCandidate (fun r => (r.openFlow.allowKey true).emit t)
    (fun _ _ _ => rfl) 1 h

theorem fork_flowEnd (t : Token) (h : s.Forked X Y s') :
    Fork X Y s.cursor.rest.length (s.flowEnd t) (s'.flowEnd t) := by
  have hprep : Steady fun s => s.dropCandidate >>= fun r => .ok r.closeFlow :=
    .bind .dropCandidate (.pure fun s c _ => closeFlow_withCursor s c)
  have hstep (s : Layout) : s.flowEnd t = ((s.dropCandidate >>= fun r => .ok r.closeFlow) >>=
      fun r => .ok (((r.allowKey false).emit t).withCursor (r.cursor.skip 1))) := by
    unfold flowEnd
    cases s.dropCandidate <;> rfl
  rw [hstep, hstep]
  exact fork_take hprep (fun r => (r.allowKey false).emit t) (fun _ _ _ => rfl) 1 h

theorem fork_flowSeparator (h : s.Forked X Y s') :
    Fork X Y s.cursor.rest.length s.flowSeparator s'.flowSeparator :=
  fork_take .dropCandidate (fun r => (r.allowKey true).emit .flowEntry)
    (fun _ _ _ => rfl) 1 h

theorem fork_sequenceEntry (h : s.Forked X Y s') :
    Fork X Y s.cursor.rest.length s.sequenceEntry s'.sequenceEntry :=
  fork_take (.openEntry _ _) (fun r => (r.allowKey true).emit .blockEntry) (fun _ _ _ => rfl) 1 h

theorem fork_explicitKey (h : s.Forked X Y s') :
    Fork X Y s.cursor.rest.length s.explicitKey s'.explicitKey :=
  fork_take (.openEntry _ _) (fun r => (r.allowKey !r.inFlow).emit .key) (fun _ _ _ => rfl) 1 h

theorem fork_mappingValue (h : s.Forked X Y s') :
    Fork X Y s.cursor.rest.length s.mappingValue s'.mappingValue :=
  fork_take .openValue (fun r => r.emit .value) (fun _ _ _ => rfl) 1 h

theorem fork_aliasOrAnchor (token : Text → Token) (h : s.Forked X Y s') :
    Fork X Y s.cursor.rest.length (s.aliasOrAnchor token) (s'.aliasOrAnchor token) :=
  fork_of_steady (fun _ => Property.anchorName)
    (fun name r => (r.allowKey false).emit (token name)) .noteCandidate
    (fun _ _ _ hc => Property.fork_anchorName hc) (fun _ _ => rfl) (fun _ _ _ _ => rfl) h

theorem fork_tagProperty (h : s.Forked X Y s') :
    Fork X Y s.cursor.rest.length s.tagProperty s'.tagProperty :=
  fork_of_steady (fun r => Property.tag r.inFlow)
    (fun t r => (r.allowKey false).emit t) .noteCandidate
    (fun r _ _ hc => Property.fork_tag hc r.inFlow) (fun _ _ => rfl) (fun _ _ _ _ => rfl) h

theorem fork_blockScalar (literal : Bool) (h : s.Forked X Y s') :
    Fork X Y s.cursor.rest.length (s.blockScalar literal) (s'.blockScalar literal) :=
  fork_of_steady (fun r => BlockScalar.read literal r.columns.head?)
    (fun text r => (r.allowKey true).emit
      (.scalar text (if literal then .literal else .folded))) .dropCandidate
    (fun r _ _ hc => BlockScalar.fork_read hc literal r.columns.head?) (fun _ _ => rfl)
    (fun _ _ _ _ => rfl) h

theorem fork_quotedScalar (single : Bool) (h : s.Forked X Y s') :
    Fork X Y s.cursor.rest.length (s.quotedScalar single) (s'.quotedScalar single) :=
  fork_of_steady (fun _ => QuotedScalar.read single)
    (fun text r => (r.allowKey false).emit
      (.scalar text (if single then .singleQuoted else .doubleQuoted))) .noteCandidate
    (fun _ _ _ hc => QuotedScalar.fork_read hc single) (fun _ _ => rfl) (fun _ _ _ _ => rfl) h

theorem fork_plainScalar (h : s.Forked X Y s') :
    Fork X Y s.cursor.rest.length s.plainScalar s'.plainScalar := by
  have hstep (s : Layout) : s.plainScalar = (s.noteCandidate >>= fun r =>
      ((PlainScalar.read r.inFlow (r.columns.head?.elim 0 (· + 1)) r.cursor).map
        fun p => ((p.text, p.brokenOff), p.rest)) >>= fun p =>
      .ok (((r.allowKey p.1.2).emit (.scalar p.1.1 .plain)).withCursor p.2)) := by
    unfold plainScalar
    congr 1
    funext r
    cases PlainScalar.read r.inFlow (r.columns.head?.elim 0 (· + 1)) r.cursor <;> rfl
  rw [hstep, hstep]
  exact fork_of_steady
    (fun r c => (PlainScalar.read r.inFlow (r.columns.head?.elim 0 (· + 1)) c).map
      fun p => ((p.text, p.brokenOff), p.rest))
    (fun p r => (r.allowKey p.2).emit (.scalar p.1 .plain)) .noteCandidate
    (fun r _ _ hc => PlainScalar.fork_read hc r.inFlow _) (fun _ _ => rfl) (fun _ _ _ _ => rfl) h

namespace Fork

variable {n : Nat} {f f' g g' : Except Error Layout}

theorem error {e : Error} : Fork X Y n (.error e) f' := by
  intro r h
  cases h

theorem ite {p : Prop} [Decidable p] (hf : Fork X Y n f f') (hg : Fork X Y n g g') :
    Fork X Y n (if p then f else g) (if p then f' else g') := by
  split
  · exact hf
  · exact hg

theorem ite_of_long {p p' : Prop} [Decidable p] [Decidable p'] (hp : X.length < n → (p' ↔ p))
    (hf : Fork X Y n f f') (hg : Fork X Y n g g') :
    Fork X Y n (if p then f else g) (if p' then f' else g') := by
  intro r hr
  split at hr
  · next h =>
    refine ⟨(hf r hr).1, fun hlong => ?_⟩
    rw [if_pos ((hp (Nat.lt_of_lt_of_le hlong (hf r hr).1)).mpr h)]
    exact (hf r hr).2 hlong
  · next h =>
    refine ⟨(hg r hr).1, fun hlong => ?_⟩
    rw [if_neg (mt (hp (Nat.lt_of_lt_of_le hlong (hg r hr).1)).mp h)]
    exact (hg r hr).2 hlong

end Fork

theorem startsPlain_forked {c : Char} {t t' : Text} (h : Yaml.Forked X Y (c :: t) (c :: t'))
    (hlong : X.length < (c :: t).length) (inFlow : Bool) :
    startsPlain inFlow c t' = startsPlain inFlow c t := by
  obtain ⟨d, u, u', heq, heq', hu, hd⟩ := h.next hlong
  obtain ⟨rfl, rfl⟩ := List.cons.inj heq
  obtain ⟨-, rfl⟩ := List.cons.inj heq'
  rcases hd with hlong | hblank
  · rw [startsPlain, startsPlain, hu.head? hlong, hu.atSpace hlong]
  · have hne (e : Char) (he : isBlank e = false) : c ≠ e := by
      rintro rfl
      rw [he] at hblank
      cases hblank
    simp only [startsPlain, hne '-' rfl, hne '?' rfl, hne ':' rfl, if_false, decide_false,
      Bool.or_self, Bool.false_eq_true]

theorem fork_token {c : Char} {t t' : Text} (h : s.Forked X Y s')
    (hc : c :: t = s.cursor.rest) (hc' : c :: t' = s'.cursor.rest) :
    Fork X Y s.cursor.rest.length (s.token c t) (s'.token c t') := by
  obtain ⟨d, hd, rfl⟩ := h
  have hmargin (hlong : X.length < s.cursor.rest.length) :
      (s.withCursor d).cursor.column = s.cursor.column := (hd hlong).2.2
  have hforked (hlong : X.length < s.cursor.rest.length) :
      Yaml.Forked X Y (c :: t) (c :: t') := by
    rw [hc, hc']
    exact (hd hlong).1
  have hmark (hlong : X.length < s.cursor.rest.length) :
      atDocumentMark (c :: t') = atDocumentMark (c :: t) := by
    exact (hforked hlong).atDocumentMark (by rwa [hc])
  have hspace (e : Char) (he : isBlank e = false) (b : Bool)
      (hlong : X.length < s.cursor.rest.length) :
      (decide (c = e) && (b || atSpace t')) = (decide (c = e) && (b || atSpace t)) := by
    obtain ⟨f, u, u', heq, heq', hu, hf⟩ := (hforked hlong).next (by rwa [hc])
    obtain ⟨rfl, rfl⟩ := List.cons.inj heq
    obtain ⟨-, rfl⟩ := List.cons.inj heq'
    rcases hf with hlong | hblank
    · rw [hu.atSpace hlong]
    · have hne : c ≠ e := by
        rintro rfl
        rw [he] at hblank
        cases hblank
      rw [decide_eq_false hne, Bool.false_and, Bool.false_and]
  have h : s.Forked X Y (s.withCursor d) := ⟨d, hd, rfl⟩
  unfold token
  refine .ite_of_long (fun hlong => ?_) (fork_directiveLine h) ?_
  · rw [hmargin hlong]
  refine .ite_of_long (fun hlong => ?_) (fork_documentMark _ h) ?_
  · rw [hmargin hlong, hmark hlong]
  refine .ite_of_long (fun hlong => ?_) (fork_documentMark _ h) ?_
  · rw [hmargin hlong, hmark hlong]
  refine .ite (fork_flowStart _ h) <| .ite (fork_flowStart _ h) <| .ite (fork_flowEnd _ h) <|
    .ite (fork_flowEnd _ h) <| .ite (fork_flowSeparator h) ?_
  refine .ite_of_long (fun hlong => ?_) (fork_sequenceEntry h) ?_
  · have := hspace '-' rfl false hlong
    simp only [Bool.false_or] at this
    rw [this]
  refine .ite_of_long (fun hlong => ?_) (fork_explicitKey h) ?_
  · rw [← hspace '?' rfl s.inFlow hlong]
    rfl
  refine .ite_of_long (fun hlong => ?_) (fork_mappingValue h) ?_
  · rw [← hspace ':' rfl s.inFlow hlong]
    rfl
  refine .ite (fork_aliasOrAnchor _ h) <| .ite (fork_aliasOrAnchor _ h) <|
    .ite (fork_tagProperty h) <| .ite (fork_blockScalar _ h) <| .ite (fork_blockScalar _ h) <|
    .ite (fork_quotedScalar _ h) <| .ite (fork_quotedScalar _ h) ?_
  refine .ite_of_long (fun hlong => ?_) (fork_plainScalar h) .error
  rw [← startsPlain_forked (hforked hlong) (by rwa [hc])]
  rfl

@[simp]
theorem closeTo_cursor (column : Nat) (s : Layout) : (s.closeTo column).cursor = s.cursor := by
  unfold closeTo
  split <;> rfl

theorem Forked.past (h : ¬ X.length < s.cursor.rest.length) : s.Forked X Y s :=
  ⟨_, fun hlong => absurd hlong h, rfl⟩

theorem skipped_forked (h : s.Forked X Y s') (hlong : X.length < s.skipped.cursor.rest.length) :
    s.skipped.Forked X Y s'.skipped := by
  obtain ⟨c, hc, rfl⟩ := h
  obtain ⟨hrest, hline, hcolumn⟩ := hc (Nat.lt_of_lt_of_le hlong (suffix_skipSpace ..).length_le)
  obtain ⟨hcursor, hallowed⟩ := skipSpace_forked hrest hlong
  obtain ⟨rest, line, column⟩ := c
  obtain rfl : line = s.cursor.line := hline
  obtain rfl : column = s.cursor.column := hcolumn
  exact ⟨_, hcursor, congrArg (fun b => ({ s with
    cursor := (s.withCursor ⟨rest, s.cursor.line, s.cursor.column⟩).skipped.cursor,
    keyAllowed := b } : Layout)) hallowed⟩

theorem tokenHere_eq_some {r : Layout} : s.tokenHere = .ok (some r) ↔
    ∃ q c t, s.dropStale = .ok q ∧ s.cursor.rest = c :: t ∧
      (q.closeTo s.cursor.column).token c t = .ok r := by
  unfold tokenHere
  cases hq : s.dropStale with
  | error e => simp
  | ok q =>
    have hclosed : (q.closeTo s.cursor.column).cursor = s.cursor := by
      rw [closeTo_cursor, Steady.dropStale.cursor_eq hq]
    simp only [ok_bind, Steady.dropStale.cursor_eq hq, hclosed]
    cases hrest : s.cursor.rest with
    | nil => simp
    | cons c t =>
      constructor
      · intro h
        obtain ⟨r', hr', h⟩ := bind_eq_ok h
        cases h
        exact ⟨q, c, t, rfl, rfl, hr'⟩
      · rintro ⟨_, _, _, hq', hct, hr⟩
        cases hq'
        obtain ⟨rfl, rfl⟩ := List.cons.inj hct
        dsimp only
        rw [hr]
        rfl

theorem tokenHere_forked {r : Layout} (h : s.Forked X Y s') (hr : s.tokenHere = .ok (some r)) :
    r.cursor.rest.length ≤ s.cursor.rest.length ∧ (X.length < r.cursor.rest.length →
      ∃ r', s'.tokenHere = .ok (some r') ∧ r.Forked X Y r') := by
  obtain ⟨q, d, t, hq, hrest, hr⟩ := tokenHere_eq_some.mp hr
  obtain ⟨p, hp⟩ : ∃ p, q.closeTo s.cursor.column = p := ⟨_, rfl⟩
  have hcursor : p.cursor = s.cursor := by
    rw [← hp, closeTo_cursor, Steady.dropStale.cursor_eq hq]
  rw [hp] at hr
  rw [← hcursor] at hrest ⊢
  by_cases hlong : X.length < p.cursor.rest.length
  · obtain ⟨c, hc, rfl⟩ := h
    rw [← hcursor] at hc
    obtain ⟨hforked, hline, hcolumn⟩ := hc hlong
    obtain ⟨e, u, u', hu, hu', -, -⟩ := hforked.next hlong
    obtain ⟨rfl, rfl⟩ := List.cons.inj (hrest.symm.trans hu)
    obtain ⟨hle, hfork⟩ := fork_token ⟨c, hc, rfl⟩ hrest.symm hu'.symm r hr
    refine ⟨hle, fun hlong => ?_⟩
    obtain ⟨r', hr', hforked⟩ := hfork hlong
    refine ⟨r', tokenHere_eq_some.mpr ⟨q.withCursor c, d, u', ?_, hu', ?_⟩, hforked⟩
    · rw [hcursor] at hline hcolumn
      rw [Steady.dropStale s c hline hcolumn, hq]
      rfl
    · have hcolumn' : (s.withCursor c).cursor.column = s.cursor.column := hcursor ▸ hcolumn
      rw [hcolumn', closeTo_withCursor, hp, hr']
  · obtain ⟨hle, -⟩ := fork_token (Forked.past (Y := Y) hlong) hrest.symm hrest.symm r hr
    exact ⟨hle, fun h => absurd (Nat.lt_of_lt_of_le h hle) hlong⟩

theorem next_forked {r : Layout} (h : s.Forked X Y s') (hr : s.next = .ok (some r)) :
    r.cursor.rest.length ≤ s.cursor.rest.length ∧ (X.length < r.cursor.rest.length →
      ∃ r', s'.next = .ok (some r') ∧ r.Forked X Y r') := by
  have hskip : s.skipped.cursor.rest.length ≤ s.cursor.rest.length :=
    (suffix_skipSpace ..).length_le
  by_cases hlong : X.length < s.skipped.cursor.rest.length
  · obtain ⟨hlength, hforked⟩ := tokenHere_forked (skipped_forked h hlong) hr
    exact ⟨Nat.le_trans hlength hskip, hforked⟩
  · obtain ⟨hlength, -⟩ := tokenHere_forked (Forked.past (Y := Y) hlong) hr
    exact ⟨Nat.le_trans hlength hskip, fun h => absurd (Nat.lt_of_lt_of_le h hlength) hlong⟩

/-- The layouts that the reading of a text goes through, token by token. -/
inductive Reads (t : Text) : Layout → Prop
  | start : Reads t (.start t)
  | next {s r : Layout} (reads : Reads t s) (step : s.next = .ok (some r)) : Reads t r

theorem Reads.forked {t t' : Text} (h : Yaml.Forked X Y t t') (hs : Reads t s)
    (hlong : X.length < s.cursor.rest.length) : ∃ s', Reads t' s' ∧ s.Forked X Y s' := by
  induction hs with
  | start => exact ⟨.start t', .start, ⟨t', 0, 0⟩, fun _ => ⟨h, rfl, rfl⟩, rfl⟩
  | @next s r reads step ih =>
    by_cases hs : X.length < s.cursor.rest.length
    · obtain ⟨s', hs', hforked⟩ := ih hs
      obtain ⟨r', hr', hforked'⟩ := (next_forked hforked step).2 hlong
      exact ⟨r', .next hs' hr', hforked'⟩
    · have hpast : s.Forked X Y s := .past hs
      exact absurd (Nat.lt_of_lt_of_le hlong (next_forked hpast step).1) hs

end Layout
end VersionDrift.Yaml
