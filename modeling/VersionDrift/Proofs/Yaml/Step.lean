import VersionDrift.Proofs.Yaml.Steady

/-!
# What one step can do

A step of the layout settles it and then takes one token: a mark of a few characters, or
a text that is read at the cursor. Settling leaves the cursor where it is and puts only
marks between the tokens.
-/

set_option autoImplicit false

namespace VersionDrift.Yaml

/-- The token is an indicator or shows indentation, and has no text of its own. -/
def Token.isMark : Token → Bool
  | .documentStart | .documentEnd | .blockSequenceStart | .blockMappingStart | .blockEnd
  | .flowSequenceStart | .flowSequenceEnd | .flowMappingStart | .flowMappingEnd | .blockEntry
  | .flowEntry | .key | .value => true
  | _ => false

namespace Property

variable {c d : Cursor} {t : Token}

theorem token_of_directive (h : directive c = .ok (t, d)) :
    (∃ major minor, t = .versionDirective major minor) ∨
      ∃ handle stem, t = .tagDirective handle stem := by
  have hend {u : Token} {e : Cursor} (h : endDirective u e = .ok (t, d)) : u = t := by
    unfold endDirective at h
    split at h
    · cases h
      rfl
    · cases h
  obtain ⟨⟨name, c₁⟩, -, h⟩ := bind_eq_ok h
  dsimp only at h
  split at h
  · cases h
  split at h
  · obtain ⟨⟨u, c₂⟩, hu, h⟩ := bind_eq_ok h
    obtain rfl := hend h
    obtain ⟨⟨major, c₃⟩, -, hu⟩ := bind_eq_ok hu
    dsimp only at hu
    split at hu
    · obtain ⟨⟨minor, c₄⟩, -, hu⟩ := bind_eq_ok hu
      cases hu
      exact .inl ⟨major, minor, rfl⟩
    · cases hu
  split at h
  · obtain ⟨⟨u, c₂⟩, hu, h⟩ := bind_eq_ok h
    obtain rfl := hend h
    obtain ⟨⟨handle, c₃⟩, -, hu⟩ := bind_eq_ok hu
    dsimp only at hu
    split at hu
    · cases hu
    split at hu
    · cases hu
    obtain ⟨⟨stem, c₄⟩, -, hu⟩ := bind_eq_ok hu
    dsimp only at hu
    split at hu
    · cases hu
    · cases hu
      exact .inr ⟨handle, stem, rfl⟩
  · cases h

theorem token_of_tag {inFlow : Bool} (h : tag inFlow c = .ok (t, d)) :
    ∃ handle suffix, t = .tag handle suffix := by
  obtain ⟨⟨u, c₁⟩, hu, h⟩ := bind_eq_ok h
  obtain rfl : u = t := by
    dsimp only at h
    split at h
    · cases h
      rfl
    · cases h
  unfold tagBody at hu
  split at hu
  · obtain ⟨⟨suffix, c₂⟩, -, hu⟩ := bind_eq_ok hu
    dsimp only at hu
    split at hu
    · cases hu
    · split at hu
      · cases hu
        exact ⟨[], suffix, rfl⟩
      · cases hu
  · obtain ⟨⟨handle, c₂⟩, -, hu⟩ := bind_eq_ok hu
    dsimp only at hu
    split at hu
    · obtain ⟨⟨suffix, c₃⟩, -, hu⟩ := bind_eq_ok hu
      dsimp only at hu
      split at hu
      · cases hu
      · cases hu
        exact ⟨handle, suffix, rfl⟩
    · obtain ⟨⟨suffix, c₃⟩, -, hu⟩ := bind_eq_ok hu
      cases hu
      split
      · exact ⟨[], ['!'], rfl⟩
      · exact ⟨['!'], suffix, rfl⟩

end Property

/-- A token with a text that is read at a cursor, and where it ends. -/
inductive Cursor.Spells (c : Cursor) : Token → Cursor → Prop
  | directive {u : Token} {d : Cursor} (read : Property.directive c = .ok (u, d)) :
      Cursor.Spells c u d
  | alias {name : Text} {d : Cursor} (read : Property.anchorName c = .ok (name, d)) :
      Cursor.Spells c (.alias name) d
  | anchor {name : Text} {d : Cursor} (begins : c.rest.head? = some '&')
      (read : Property.anchorName c = .ok (name, d)) : Cursor.Spells c (.anchor name) d
  | tag {inFlow : Bool} {u : Token} {d : Cursor} (begins : c.rest.head? = some '!')
      (read : Property.tag inFlow c = .ok (u, d)) : Cursor.Spells c u d
  | block {literal : Bool} {parent : Option Nat} {text : Text} {d : Cursor}
      (read : BlockScalar.read literal parent c = .ok (text, d)) :
      Cursor.Spells c (.scalar text (if literal then .literal else .folded)) d
  | quoted {single : Bool} {text : Text} {d : Cursor}
      (read : QuotedScalar.read single c = .ok (text, d)) :
      Cursor.Spells c (.scalar text (if single then .singleQuoted else .doubleQuoted)) d
  | plain {inFlow : Bool} {indent : Nat} {e : Char} {t : Text} {p : PlainScalar}
      (rest : c.rest = e :: t) (begins : Layout.startsPlain inFlow e t = true)
      (read : PlainScalar.read inFlow indent c = .ok p) :
      Cursor.Spells c (.scalar p.text .plain) p.rest

namespace Layout

def Settles (s q : Layout) : Prop :=
  q.cursor = s.cursor ∧ ∀ t ∈ q.emitted, t.isMark = false → t ∈ s.emitted

/-- How a step ends that begins at the cursor. -/
inductive Steps (s : Layout) : Layout → Prop
  | mark {q : Layout} {k : Nat} {u : Token} (settles : s.Settles q) (mark : u.isMark = true) :
      Steps s (q.take (k + 1) u)
  | read {q : Layout} {u : Token} {d : Cursor} (settles : s.Settles q)
      (spells : s.cursor.Spells u d) : Steps s ((q.emit u).withCursor d)

namespace Settles

variable {s q r : Layout} {u : Token}

theorem of_eq (hcursor : q.cursor = s.cursor) (hemitted : q.emitted = s.emitted) : s.Settles q :=
  ⟨hcursor, fun _ ht _ => hemitted ▸ ht⟩

theorem trans (h : s.Settles q) (h' : q.Settles r) : s.Settles r :=
  ⟨h'.1.trans h.1, fun t ht hmark => h.2 t (h'.2 t ht hmark) hmark⟩

theorem insertAt (s : Layout) (position : Nat) (hu : u.isMark = true) :
    s.Settles (s.insertAt position u) := by
  refine ⟨rfl, fun t ht hmark => ?_⟩
  rcases List.mem_append.mp ht with ht | ht
  · exact List.mem_of_mem_take ht
  · rcases List.mem_cons.mp ht with rfl | ht
    · rw [hu] at hmark
      cases hmark
    · exact List.mem_of_mem_drop ht

theorem openBlock (s : Layout) (column position : Nat) (hu : u.isMark = true) :
    s.Settles (s.openBlock column position u) := by
  unfold Layout.openBlock
  split
  · exact insertAt s position hu
  · exact of_eq rfl rfl

theorem of_replicate {n : Nat} (hcursor : q.cursor = s.cursor)
    (hemitted : q.emitted = List.replicate n .blockEnd ++ s.emitted) : s.Settles q := by
  refine ⟨hcursor, fun t ht hmark => ?_⟩
  rw [hemitted] at ht
  rcases List.mem_append.mp ht with ht | ht
  · rw [List.eq_of_mem_replicate ht] at hmark
    cases hmark
  · exact ht

theorem closeTo (s : Layout) (column : Nat) : s.Settles (s.closeTo column) := by
  unfold Layout.closeTo
  split
  · exact of_eq rfl rfl
  · exact of_replicate rfl rfl

theorem closeAll (s : Layout) : s.Settles s.closeAll := by
  unfold Layout.closeAll
  split
  · exact of_eq rfl rfl
  · exact of_replicate rfl rfl

theorem closeFlow (s : Layout) : s.Settles s.closeFlow := by
  unfold Layout.closeFlow
  split <;> exact of_eq rfl rfl

theorem dropCandidate (h : s.dropCandidate = .ok q) : s.Settles q := by
  rw [dropCandidate_eq_ok h]
  exact of_eq rfl rfl

theorem noteCandidate (h : s.noteCandidate = .ok q) : s.Settles q := by
  obtain ⟨k, rfl⟩ := noteCandidate_eq_ok h
  exact of_eq rfl rfl

theorem dropStale (h : s.dropStale = .ok q) : s.Settles q := by
  obtain ⟨k, ks, rfl⟩ := dropStale_eq_ok h
  exact of_eq rfl rfl

theorem openEntry {refusal : Error} (hu : u.isMark = true) (h : s.openEntry refusal u = .ok q) :
    s.Settles q := by
  unfold Layout.openEntry at h
  split at h
  · cases h
  · exact (openBlock s _ _ hu).trans (dropCandidate h)

theorem openValue (h : s.openValue = .ok q) : s.Settles q := by
  unfold Layout.openValue at h
  split at h
  · next k _ =>
    cases h
    exact ((insertAt s k.position rfl).trans (openBlock _ k.column k.position rfl)).trans
      (of_eq rfl rfl)
  · split at h
    · cases h
    · cases h
      exact (openBlock s _ _ rfl).trans (of_eq rfl rfl)

end Settles

def TakesStep (s : Layout) (f : Except Error Layout) : Prop := ∀ r, f = .ok r → s.Steps r

namespace TakesStep

variable {s : Layout} {f g prep : Except Error Layout} {p : Prop} [Decidable p]

theorem error {e : Error} : s.TakesStep (.error e) := by
  intro r h
  cases h

theorem ite (hf : p → s.TakesStep f) (hg : s.TakesStep g) :
    s.TakesStep (if p then f else g) := by
  split
  · next h => exact hf h
  · exact hg

theorem mark (note : Layout → Layout) {k : Nat} {u : Token}
    (hprep : ∀ q, prep = .ok q → s.Settles (note q)) (hu : u.isMark = true) :
    s.TakesStep (prep >>= fun q => .ok ((note q).take (k + 1) u)) := by
  intro r h
  obtain ⟨q, hq, h⟩ := bind_eq_ok h
  cases h
  exact .mark (hprep q hq) hu

theorem read {α : Type} (read : Layout → Except Error (α × Cursor)) (token : α → Token) (b : Bool)
    (hprep : ∀ q, prep = .ok q → s.Settles q)
    (hread : ∀ q a d, q.cursor = s.cursor → read q = .ok (a, d) → s.cursor.Spells (token a) d) :
    s.TakesStep (prep >>= fun q => read q >>= fun p =>
      .ok (((q.allowKey b).emit (token p.1)).withCursor p.2)) := by
  intro r h
  obtain ⟨q, hq, h⟩ := bind_eq_ok h
  obtain ⟨⟨a, d⟩, hd, h⟩ := bind_eq_ok h
  cases h
  have hsettles := hprep q hq
  exact .read (hsettles.trans (.of_eq rfl rfl)) (hread q a d hsettles.1 hd)

theorem documentMark {u : Token} (hu : u.isMark = true) : s.TakesStep (s.documentMark u) :=
  .mark (fun q => q.allowKey false)
    (fun _ hq => ((Settles.closeAll s).trans (.dropCandidate hq)).trans (.of_eq rfl rfl)) hu

theorem directiveLine : s.TakesStep s.directiveLine :=
  .read (fun q => Property.directive q.cursor) id false
    (fun _ hq => (Settles.closeAll s).trans (.dropCandidate hq))
    fun _ _ _ hq h => .directive (hq ▸ h)

theorem flowStart {u : Token} (hu : u.isMark = true) : s.TakesStep (s.flowStart u) :=
  .mark (fun q => q.openFlow.allowKey true)
    (fun _ hq => (Settles.noteCandidate hq).trans (.of_eq rfl rfl)) hu

theorem flowEnd {u : Token} (hu : u.isMark = true) : s.TakesStep (s.flowEnd u) :=
  .mark (fun q => q.closeFlow.allowKey false)
    (fun q hq => ((Settles.dropCandidate hq).trans (.closeFlow q)).trans (.of_eq rfl rfl)) hu

theorem flowSeparator : s.TakesStep s.flowSeparator :=
  .mark (fun q => q.allowKey true)
    (fun _ hq => (Settles.dropCandidate hq).trans (.of_eq rfl rfl)) rfl

theorem sequenceEntry : s.TakesStep s.sequenceEntry :=
  .mark (fun q => q.allowKey true)
    (fun _ hq => (Settles.openEntry rfl hq).trans (.of_eq rfl rfl)) rfl

theorem explicitKey : s.TakesStep s.explicitKey :=
  .mark (fun q => q.allowKey !q.inFlow)
    (fun _ hq => (Settles.openEntry rfl hq).trans (.of_eq rfl rfl)) rfl

theorem mappingValue : s.TakesStep s.mappingValue :=
  .mark id (fun _ hq => .openValue hq) rfl

theorem aliasName : s.TakesStep (s.aliasOrAnchor .alias) :=
  .read (fun q => Property.anchorName q.cursor) .alias false (fun _ hq => .noteCandidate hq)
    fun _ _ _ hq h => .alias (hq ▸ h)

theorem anchorName (hbegins : s.cursor.rest.head? = some '&') :
    s.TakesStep (s.aliasOrAnchor .anchor) :=
  .read (fun q => Property.anchorName q.cursor) .anchor false (fun _ hq => .noteCandidate hq)
    fun _ _ _ hq h => .anchor hbegins (hq ▸ h)

theorem tagProperty (hbegins : s.cursor.rest.head? = some '!') : s.TakesStep s.tagProperty :=
  .read (fun q => Property.tag q.inFlow q.cursor) id false (fun _ hq => .noteCandidate hq)
    fun _ _ _ hq h => .tag hbegins (hq ▸ h)

theorem blockScalar (literal : Bool) : s.TakesStep (s.blockScalar literal) :=
  .read (fun q => BlockScalar.read literal q.columns.head? q.cursor)
    (fun text => .scalar text (if literal then .literal else .folded)) true
    (fun _ hq => .dropCandidate hq) fun _ _ _ hq h => .block (hq ▸ h)

theorem quotedScalar (single : Bool) : s.TakesStep (s.quotedScalar single) :=
  .read (fun q => QuotedScalar.read single q.cursor)
    (fun text => .scalar text (if single then .singleQuoted else .doubleQuoted)) false
    (fun _ hq => .noteCandidate hq) fun _ _ _ hq h => .quoted (hq ▸ h)

theorem plainScalar {c : Char} {t : Text} (hrest : s.cursor.rest = c :: t)
    (hbegins : startsPlain s.inFlow c t = true) : s.TakesStep s.plainScalar := by
  intro r h
  obtain ⟨q, hq, h⟩ := bind_eq_ok h
  obtain ⟨p, hp, h⟩ := bind_eq_ok h
  cases h
  obtain ⟨k, rfl⟩ := noteCandidate_eq_ok hq
  exact .read (.of_eq rfl rfl) (.plain hrest hbegins hp)

end TakesStep

theorem steps_token {s : Layout} {c : Char} {t : Text} (hrest : s.cursor.rest = c :: t) :
    s.TakesStep (s.token c t) := by
  have hhead {d : Char} (hd : c = d) : s.cursor.rest.head? = some d := by rw [hrest, hd]; rfl
  unfold token
  exact .ite (fun _ => .directiveLine) <| .ite (fun _ => .documentMark rfl) <|
    .ite (fun _ => .documentMark rfl) <| .ite (fun _ => .flowStart rfl) <|
    .ite (fun _ => .flowStart rfl) <| .ite (fun _ => .flowEnd rfl) <|
    .ite (fun _ => .flowEnd rfl) <| .ite (fun _ => .flowSeparator) <|
    .ite (fun _ => .sequenceEntry) <| .ite (fun _ => .explicitKey) <|
    .ite (fun _ => .mappingValue) <| .ite (fun _ => .aliasName) <|
    .ite (fun h => .anchorName (hhead h)) <| .ite (fun h => .tagProperty (hhead h)) <|
    .ite (fun _ => .blockScalar true) <| .ite (fun _ => .blockScalar false) <|
    .ite (fun _ => .quotedScalar true) <| .ite (fun _ => .quotedScalar false) <|
    .ite (fun h => .plainScalar hrest h) .error

theorem steps_of_next {s r : Layout} (h : s.next = .ok (some r)) :
    s.skipped.cursor.rest ≠ [] ∧ s.skipped.Steps r := by
  obtain ⟨q, c, t, hq, hrest, hr⟩ := tokenHere_eq_some.mp h
  have hsettles := (Settles.dropStale hq).trans (.closeTo q s.skipped.cursor.column)
  have hrest' : (q.closeTo s.skipped.cursor.column).cursor.rest = c :: t := by
    rw [hsettles.1, hrest]
  refine ⟨by simp [hrest], ?_⟩
  cases steps_token hrest' r hr with
  | mark settles mark => exact .mark (hsettles.trans settles) mark
  | read settles spells => exact .read (hsettles.trans settles) (hsettles.1 ▸ spells)

end Layout
end VersionDrift.Yaml
