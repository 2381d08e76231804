import VersionDrift.Yaml.Tokens
import VersionDrift.Proofs.Except
import VersionDrift.Proofs.Yaml.Composed

/-!
# Reading on after a difference

What has been emitted decides nothing but the places of keys, by its length. So two
layouts that differ in the texts of emitted scalars read on in the same way, and
their tokens differ in the same scalars.
-/

set_option autoImplicit false

namespace VersionDrift.Yaml

/-- If the first succeeds, so does the second, with results in relation. -/
def Matched {α : Type} (f f' : Except Error α) (Q : α → α → Prop) : Prop :=
  ∀ a, f = .ok a → ∃ a', f' = .ok a' ∧ Q a a'

namespace Matched

variable {α β : Type} {f f' : Except Error α} {g g' : α → Except Error β} {P : α → α → Prop}
  {Q : β → β → Prop}

theorem bind (hf : Matched f f' P) (hg : ∀ a a', P a a' → Matched (g a) (g' a') Q) :
    Matched (f >>= g) (f' >>= g') Q := by
  intro b h
  obtain ⟨a, ha, hb⟩ := bind_eq_ok h
  obtain ⟨a', ha', hP⟩ := hf a ha
  obtain ⟨b', hb', hQ⟩ := hg a a' hP b hb
  exact ⟨b', by rw [ha']; exact hb', hQ⟩

theorem same_bind (hg : ∀ a, Matched (g a) (g' a) Q) : Matched (f >>= g) (f >>= g') Q :=
  bind (P := fun a a' => a' = a) (fun a ha => ⟨a, ha, rfl⟩) fun a _ h => h ▸ hg a

theorem ok {b b' : β} (h : Q b b') : Matched (.ok b) (.ok b') Q := by
  intro a ha
  cases ha
  exact ⟨b', rfl, h⟩

theorem error {e : Error} {x : Except Error β} : Matched (.error e) x Q := by
  intro a ha
  cases ha

theorem ite {c : Prop} [Decidable c] {x x' y y' : Except Error β} (hx : Matched x x' Q)
    (hy : Matched y y' Q) : Matched (if c then x else y) (if c then x' else y') Q := by
  split
  · exact hx
  · exact hy

end Matched

/-- Emitted tokens, the last one first, that differ in `n` scalars without anchors and tags. -/
inductive Token.Emitted (old new : Text) : Nat → List Token → List Token → Prop
  | nil : Token.Emitted old new 0 [] []
  | cons {i j : Nat} {t u : Token} {ts us : List Token} (head : Token.Edited old new i t u)
      (tail : Token.Emitted old new j ts us)
      (bare : i = 0 ∨ ∀ p ∈ ts.head?, p.isProperty = false) :
      Token.Emitted old new (i + j) (t :: ts) (u :: us)

theorem Token.Bare.concat {ts us : List Token} {t u : Token} (h : Token.Bare ts us)
    (hlength : us.length = ts.length)
    (hlast : u = t ∨ ∀ p ∈ ts.getLast?, p.isProperty = false) :
    Token.Bare (ts ++ [t]) (us ++ [u]) := by
  intro k p hk hproperty
  rcases Nat.lt_trichotomy (k + 1) ts.length with hlt | heq | hgt
  · rw [List.getElem?_append_left (by omega)] at hk
    rw [List.getElem?_append_left (by omega), List.getElem?_append_left hlt]
    exact h k p hk hproperty
  · rw [List.getElem?_append_left (by omega)] at hk
    have hmem : p ∈ ts.getLast? := by
      rw [List.getLast?_eq_getElem?, ← heq, Nat.add_sub_cancel, hk]
      rfl
    rcases hlast with rfl | hlast
    · rw [List.getElem?_append_right (by omega), List.getElem?_append_right (by omega), hlength]
    · rw [hlast p hmem] at hproperty
      cases hproperty
  · rw [List.getElem?_eq_none (by simp; omega), List.getElem?_eq_none (by simp; omega)]

namespace Token.Emitted

variable {old new : Text} {n : Nat} {ts us : List Token}

theorem kept (t : Token) (h : Emitted old new n ts us) : Emitted old new n (t :: ts) (t :: us) := by
  have hcons := Emitted.cons (.kept t) h (.inl rfl)
  rwa [Nat.zero_add] at hcons

theorem refl (ts : List Token) : Emitted old new 0 ts ts := by
  induction ts with
  | nil => exact .nil
  | cons t ts ih => exact ih.kept t

theorem length_eq (h : Emitted old new n ts us) : us.length = ts.length := by
  induction h with
  | nil => rfl
  | cons head tail bare ih => rw [List.length_cons, List.length_cons, ih]

theorem insert (h : Emitted old new n ts us) {t : Token} (ht : t.isProperty = false) (k : Nat) :
    Emitted old new n (ts.take k ++ t :: ts.drop k) (us.take k ++ t :: us.drop k) := by
  induction k generalizing n ts us with
  | zero => exact h.kept t
  | succ k ih =>
    cases h with
    | nil => exact Emitted.nil.kept t
    | @cons i j a b as bs head tail bare =>
      refine .cons head (ih tail) (bare.imp_right fun hbare p hp => ?_)
      cases k with
      | zero =>
        obtain rfl := Option.some.inj hp
        exact ht
      | succ k =>
        cases as with
        | nil =>
          obtain rfl := Option.some.inj hp
          exact ht
        | cons c as => exact hbare p hp

theorem replicate (h : Emitted old new n ts us) (k : Nat) (t : Token) :
    Emitted old new n (List.replicate k t ++ ts) (List.replicate k t ++ us) := by
  induction k with
  | zero => exact h
  | succ k ih => exact ih.kept t

theorem reverse (h : Emitted old new n ts us) :
    Summed (Token.Edited old new) n ts.reverse us.reverse ∧ Token.Bare ts.reverse us.reverse := by
  induction h with
  | nil => exact ⟨.nil, fun k t hk _ => by simp at hk⟩
  | @cons i j t u ts us head tail bare ih =>
    obtain ⟨hsummed, hbare⟩ := ih
    rw [List.reverse_cons, List.reverse_cons]
    refine ⟨?_, hbare.concat hsummed.length_eq.symm ?_⟩
    · rw [Nat.add_comm]
      exact hsummed.append (.single head)
    · rw [List.getLast?_reverse]
      refine bare.imp_left fun hi => ?_
      subst hi
      cases head
      rfl

end Token.Emitted

/-- Layouts that differ in the texts of `n` emitted scalars. -/
structure Layout.Edited (old new : Text) (n : Nat) (s s' : Layout) : Prop where
  cursor : s'.cursor = s.cursor
  columns : s'.columns = s.columns
  candidate : s'.candidate = s.candidate
  outer : s'.outer = s.outer
  keyAllowed : s'.keyAllowed = s.keyAllowed
  emitted : Token.Emitted old new n s.emitted s'.emitted

namespace Layout

namespace Edited

variable {old new : Text} {n : Nat} {s s' : Layout}

theorem inFlow (h : Edited old new n s s') : s'.inFlow = s.inFlow := by
  rw [Layout.inFlow, Layout.inFlow, h.outer]

theorem length (h : Edited old new n s s') : s'.emitted.length = s.emitted.length :=
  h.emitted.length_eq

theorem withCursor (h : Edited old new n s s') (c : Cursor) :
    Edited old new n { s with cursor := c } { s' with cursor := c } :=
  ⟨rfl, h.columns, h.candidate, h.outer, h.keyAllowed, h.emitted⟩

theorem emit (h : Edited old new n s s') (t : Token) :
    Edited old new n (s.emit t) (s'.emit t) :=
  ⟨h.cursor, h.columns, h.candidate, h.outer, h.keyAllowed, h.emitted.kept t⟩

theorem take (h : Edited old new n s s') (k : Nat) (t : Token) :
    Edited old new n (s.take k t) (s'.take k t) :=
  ⟨by simp only [Layout.take_cursor, h.cursor], h.columns, h.candidate, h.outer, h.keyAllowed,
    h.emitted.kept t⟩

theorem insertAt (h : Edited old new n s s') (position : Nat) {t : Token}
    (ht : t.isProperty = false) :
    Edited old new n (s.insertAt position t) (s'.insertAt position t) := by
  refine ⟨h.cursor, h.columns, h.candidate, h.outer, h.keyAllowed, ?_⟩
  simpa only [Layout.insertAt, h.length] using h.emitted.insert ht (s.emitted.length - position)

theorem allowKey (h : Edited old new n s s') (b : Bool) :
    Edited old new n (s.allowKey b) (s'.allowKey b) :=
  ⟨h.cursor, h.columns, h.candidate, h.outer, rfl, h.emitted⟩

theorem openFlow (h : Edited old new n s s') : Edited old new n s.openFlow s'.openFlow :=
  ⟨h.cursor, h.columns, rfl, by simp only [Layout.openFlow, h.candidate, h.outer], h.keyAllowed,
    h.emitted⟩

theorem closeFlow (h : Edited old new n s s') : Edited old new n s.closeFlow s'.closeFlow := by
  have houter := h.outer
  unfold Layout.closeFlow
  split
  · next hs =>
    rw [hs] at houter
    rw [houter]
    exact h
  · next k ks hs =>
    rw [hs] at houter
    rw [houter]
    exact ⟨h.cursor, h.columns, rfl, rfl, h.keyAllowed, h.emitted⟩

theorem openBlock (h : Edited old new n s s') (column position : Nat) {t : Token}
    (ht : t.isProperty = false) :
    Edited old new n (s.openBlock column position t) (s'.openBlock column position t) := by
  have hinsert := h.insertAt position ht
  have hdeeper : s'.deeper column = s.deeper column := by
    rw [Layout.deeper, Layout.deeper, h.columns]
  unfold Layout.openBlock
  rw [h.inFlow, hdeeper]
  split
  · exact ⟨h.cursor, by simp only [h.columns], h.candidate, h.outer, h.keyAllowed, hinsert.emitted⟩
  · exact h

theorem closeTo (h : Edited old new n s s') (column : Nat) :
    Edited old new n (s.closeTo column) (s'.closeTo column) := by
  unfold Layout.closeTo
  rw [h.inFlow, h.columns]
  split
  · exact h
  · exact ⟨h.cursor, rfl, h.candidate, h.outer, h.keyAllowed, h.emitted.replicate _ _⟩

theorem closeAll (h : Edited old new n s s') : Edited old new n s.closeAll s'.closeAll := by
  unfold Layout.closeAll
  rw [h.inFlow, h.columns]
  split
  · exact h
  · exact ⟨h.cursor, rfl, h.candidate, h.outer, h.keyAllowed, h.emitted.replicate _ _⟩

theorem dropStale (h : Edited old new n s s') :
    Matched s.dropStale s'.dropStale (Edited old new n) := by
  unfold Layout.dropStale
  rw [h.cursor, h.outer, h.candidate]
  exact .same_bind fun outer => .same_bind fun candidate =>
    .ok ⟨rfl, h.columns, rfl, rfl, h.keyAllowed, h.emitted⟩

theorem dropCandidate (h : Edited old new n s s') :
    Matched s.dropCandidate s'.dropCandidate (Edited old new n) := by
  unfold Layout.dropCandidate
  rw [h.candidate]
  split
  · exact .ite .error (.ok ⟨h.cursor, h.columns, rfl, h.outer, h.keyAllowed, h.emitted⟩)
  · exact .ok h

theorem noteCandidate (h : Edited old new n s s') :
    Matched s.noteCandidate s'.noteCandidate (Edited old new n) := by
  unfold Layout.noteCandidate
  rw [h.keyAllowed]
  refine .ite (.bind h.dropCandidate fun r r' hr => ?_) (.ok h)
  rw [hr.inFlow, hr.columns, hr.cursor, hr.length]
  exact .ok ⟨rfl, rfl, rfl, hr.outer, hr.keyAllowed, hr.emitted⟩

theorem documentMark (h : Edited old new n s s') (t : Token) :
    Matched (s.documentMark t) (s'.documentMark t) (Edited old new n) :=
  .bind h.closeAll.dropCandidate fun _ _ hr => .ok ((hr.allowKey false).take 3 t)

theorem directiveLine (h : Edited old new n s s') :
    Matched s.directiveLine s'.directiveLine (Edited old new n) := by
  refine .bind h.closeAll.dropCandidate fun r r' hr => ?_
  rw [hr.cursor]
  exact .same_bind fun p => .ok (((hr.allowKey false).emit p.1).withCursor p.2)

theorem flowStart (h : Edited old new n s s') (t : Token) :
    Matched (s.flowStart t) (s'.flowStart t) (Edited old new n) :=
  .bind h.noteCandidate fun _ _ hr => .ok ((hr.openFlow.allowKey true).take 1 t)

theorem flowEnd (h : Edited old new n s s') (t : Token) :
    Matched (s.flowEnd t) (s'.flowEnd t) (Edited old new n) :=
  .bind h.dropCandidate fun _ _ hr => .ok ((hr.closeFlow.allowKey false).take 1 t)

theorem flowSeparator (h : Edited old new n s s') :
    Matched s.flowSeparator s'.flowSeparator (Edited old new n) :=
  .bind h.dropCandidate fun _ _ hr => .ok ((hr.allowKey true).take 1 .flowEntry)

theorem openEntry (h : Edited old new n s s') (refusal : Error) {t : Token}
    (ht : t.isProperty = false) :
    Matched (s.openEntry refusal t) (s'.openEntry refusal t) (Edited old new n) := by
  unfold Layout.openEntry
  rw [h.inFlow, h.keyAllowed, h.cursor, h.length]
  exact .ite .error (h.openBlock _ _ ht).dropCandidate

theorem sequenceEntry (h : Edited old new n s s') :
    Matched s.sequenceEntry s'.sequenceEntry (Edited old new n) :=
  .bind (h.openEntry _ rfl) fun _ _ hr => .ok ((hr.allowKey true).take 1 _)

theorem explicitKey (h : Edited old new n s s') :
    Matched s.explicitKey s'.explicitKey (Edited old new n) := by
  refine .bind (h.openEntry _ rfl) fun r r' hr => ?_
  rw [hr.inFlow]
  exact .ok ((hr.allowKey _).take 1 _)

theorem openValue (h : Edited old new n s s') :
    Matched s.openValue s'.openValue (Edited old new n) := by
  unfold Layout.openValue
  rw [h.candidate]
  split
  · next k hk =>
    have hkey := h.insertAt k.position (t := .key) rfl
    have hopen := hkey.openBlock k.column k.position (t := .blockMappingStart) rfl
    exact .ok ⟨hopen.cursor, hopen.columns, rfl, hopen.outer, rfl, hopen.emitted⟩
  · rw [h.inFlow, h.keyAllowed, h.cursor, h.length]
    exact .ite .error (.ok ((h.openBlock _ _ rfl).allowKey _))

theorem mappingValue (h : Edited old new n s s') :
    Matched s.mappingValue s'.mappingValue (Edited old new n) :=
  .bind h.openValue fun _ _ hr => .ok (hr.take 1 .value)

theorem aliasOrAnchor (h : Edited old new n s s') (token : Text → Token) :
    Matched (s.aliasOrAnchor token) (s'.aliasOrAnchor token) (Edited old new n) := by
  refine .bind h.noteCandidate fun r r' hr => ?_
  rw [hr.cursor]
  exact .same_bind fun p => .ok (((hr.allowKey false).emit (token p.1)).withCursor p.2)

theorem tagProperty (h : Edited old new n s s') :
    Matched s.tagProperty s'.tagProperty (Edited old new n) := by
  refine .bind h.noteCandidate fun r r' hr => ?_
  rw [hr.cursor, hr.inFlow]
  exact .same_bind fun p => .ok (((hr.allowKey false).emit p.1).withCursor p.2)

theorem blockScalar (h : Edited old new n s s') (literal : Bool) :
    Matched (s.blockScalar literal) (s'.blockScalar literal) (Edited old new n) := by
  refine .bind h.dropCandidate fun r r' hr => ?_
  rw [hr.cursor, hr.columns]
  exact .same_bind fun p => .ok (((hr.allowKey true).emit _).withCursor p.2)

theorem quotedScalar (h : Edited old new n s s') (single : Bool) :
    Matched (s.quotedScalar single) (s'.quotedScalar single) (Edited old new n) := by
  refine .bind h.noteCandidate fun r r' hr => ?_
  rw [hr.cursor]
  exact .same_bind fun p => .ok (((hr.allowKey false).emit _).withCursor p.2)

theorem plainScalar (h : Edited old new n s s') :
    Matched s.plainScalar s'.plainScalar (Edited old new n) := by
  refine .bind h.noteCandidate fun r r' hr => ?_
  rw [hr.inFlow, hr.columns, hr.cursor]
  exact .same_bind fun p => .ok (((hr.allowKey p.brokenOff).emit _).withCursor p.rest)

theorem token (h : Edited old new n s s') (c : Char) (t : Text) :
    Matched (s.token c t) (s'.token c t) (Edited old new n) := by
  unfold Layout.token
  rw [h.cursor, h.inFlow]
  exact .ite h.directiveLine <| .ite (h.documentMark _) <| .ite (h.documentMark _) <|
    .ite (h.flowStart _) <| .ite (h.flowStart _) <| .ite (h.flowEnd _) <| .ite (h.flowEnd _) <|
    .ite h.flowSeparator <| .ite h.sequenceEntry <| .ite h.explicitKey <| .ite h.mappingValue <|
    .ite (h.aliasOrAnchor _) <| .ite (h.aliasOrAnchor _) <| .ite h.tagProperty <|
    .ite (h.blockScalar _) <| .ite (h.blockScalar _) <| .ite (h.quotedScalar _) <|
    .ite (h.quotedScalar _) <| .ite h.plainScalar .error

theorem tokenHere (h : Edited old new n s s') :
    Matched s.tokenHere s'.tokenHere (Option.Rel (Edited old new n)) := by
  refine .bind h.dropStale fun r r' hr => ?_
  have hclosed := hr.closeTo r.cursor.column
  rw [hr.cursor]
  dsimp only
  rw [hclosed.cursor]
  split
  · exact .ok .none
  · exact .bind (hclosed.token _ _) fun _ _ hr => .ok (.some hr)

theorem next (h : Edited old new n s s') :
    Matched s.next s'.next (Option.Rel (Edited old new n)) := by
  have hskip : skipSpace s'.inFlow s'.cursor.rest s'.cursor.line s'.cursor.column s'.keyAllowed
      false = skipSpace s.inFlow s.cursor.rest s.cursor.line s.cursor.column s.keyAllowed
      false := by
    rw [h.inFlow, h.cursor, h.keyAllowed]
  have hskipped : Edited old new n s.skipped s'.skipped :=
    ⟨congrArg Prod.fst hskip, h.columns, h.candidate, h.outer, congrArg Prod.snd hskip, h.emitted⟩
  exact hskipped.tokenHere

theorem finish (h : Edited old new n s s') :
    Matched s.finish s'.finish fun ts us =>
      Summed (Token.Edited old new) n ts us ∧ Token.Bare ts us :=
  .bind h.closeAll.dropCandidate fun _ _ hr => .ok hr.emitted.reverse

/-- The other reading gives all its tokens too, which differ in the same scalars. -/
theorem run (h : Edited old new n s s') {fuel fuel' : Nat} (hfuel : fuel ≤ fuel') :
    Matched (s.run fuel) (s'.run fuel') fun ts us =>
      Summed (Token.Edited old new) n ts us ∧ Token.Bare ts us := by
  induction fuel generalizing s s' fuel' with
  | zero => exact .error
  | succ fuel ih =>
    obtain ⟨k, rfl⟩ : ∃ k, fuel' = k + 1 := ⟨fuel' - 1, by omega⟩
    refine .bind h.next fun r r' hr => ?_
    cases hr with
    | none => exact h.finish
    | some hr => exact ih hr (by omega)

end Edited
end Layout
end VersionDrift.Yaml
