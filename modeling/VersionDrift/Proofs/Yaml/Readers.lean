import VersionDrift.Proofs.Yaml.Forked

/-!
# Readings of texts with a common beginning

Scalars, anchors, tags and directives that end before the fork are the same in both
texts.
-/

set_option autoImplicit false

namespace VersionDrift.Yaml

variable {X Y t t' : Text}

theorem skipSpace_forked {inFlow : Bool} {line column : Nat} {keyAllowed inComment : Bool}
    (h : Forked X Y t t')
    (hlong : X.length < (skipSpace inFlow t line column keyAllowed inComment).1.rest.length) :
    (skipSpace inFlow t line column keyAllowed inComment).1.Forked X Y
        (skipSpace inFlow t' line column keyAllowed inComment).1 ∧
      (skipSpace inFlow t' line column keyAllowed inComment).2 =
        (skipSpace inFlow t line column keyAllowed inComment).2 := by
  induction h generalizing line column keyAllowed inComment with
  | here => exact absurd hlong (Nat.not_lt.mpr (suffix_skipSpace ..).length_le)
  | @cons c t t' tail ends ih =>
    rw [skipSpace] at hlong ⊢
    rw [skipSpace]
    split at hlong
    · next hc =>
      rw [if_pos hc, if_pos hc]
      exact ih hlong
    next hc =>
    rw [if_neg hc, if_neg hc]
    split at hlong
    · next hc =>
      rw [if_pos hc, if_pos hc]
      exact ih hlong
    next hc =>
    rw [if_neg hc, if_neg hc]
    split at hlong
    · next hc =>
      rw [if_pos hc, if_pos hc]
      exact ih hlong
    next hc =>
    rw [if_neg hc, if_neg hc]
    split at hlong
    · next hc =>
      rw [if_pos hc, if_pos hc]
      exact ih hlong
    next hc =>
    rw [if_neg hc, if_neg hc]
    split at hlong
    · next hc =>
      rw [if_pos hc, if_pos hc]
      exact ih hlong
    next hc =>
    rw [if_neg hc, if_neg hc]
    exact ⟨fun _ => ⟨.cons tail ends, rfl, rfl⟩, rfl⟩

namespace PlainScalar

theorem readFrom_forked {inFlow : Bool} {indent line column : Nat} {acc : Text} {gap : Gap}
    {p : PlainScalar} (h : Forked X Y t t')
    (hp : readFrom inFlow indent t line column acc gap = .ok p)
    (hlong : X.length < p.rest.rest.length) :
    ∃ c', p.rest.Forked X Y c' ∧
      readFrom inFlow indent t' line column acc gap = .ok { p with rest := c' } := by
  induction h generalizing line column acc gap with
  | here => exact absurd hlong (Nat.not_lt.mpr (suffix_readFrom hp).length_le)
  | @cons c t t' tail ends ih =>
    have hforked : Forked X Y (c :: t) (c :: t') := .cons tail ends
    have hhere : X.length < (c :: t).length :=
      Nat.lt_of_lt_of_le hlong (suffix_readFrom hp).length_le
    rw [readFrom] at hp ⊢
    rw [hforked.stopsAfterGap hhere, hforked.badColon hhere, hforked.atEnd hhere]
    split at hp
    · next hc =>
      rw [if_pos hc]
      split at hp
      · cases hp
      · next htab =>
        rw [if_neg htab]
        exact ih hp
    next hc =>
    rw [if_neg hc]
    split at hp
    · next hc =>
      rw [if_pos hc]
      exact ih hp
    next hc =>
    rw [if_neg hc]
    split at hp
    · next hc =>
      rw [if_pos hc]
      cases hp
      exact ⟨⟨c :: t', line, column⟩, fun _ => ⟨hforked, rfl, rfl⟩, rfl⟩
    next hc =>
    rw [if_neg hc]
    split at hp
    · cases hp
    next hc =>
    rw [if_neg hc]
    split at hp
    · next hc =>
      rw [if_pos hc]
      cases hp
      exact ⟨⟨c :: t', line, column⟩, fun _ => ⟨hforked, rfl, rfl⟩, rfl⟩
    next hc =>
    rw [if_neg hc]
    exact ih hp

theorem fork_read {c c' : Cursor} (h : c.Forked X Y c') (inFlow : Bool) (indent : Nat) :
    Fork X Y c.rest.length
      ((read inFlow indent c).map fun p => ((p.text, p.brokenOff), p.rest))
      ((read inFlow indent c').map fun p => ((p.text, p.brokenOff), p.rest)) := by
  intro a d hd
  cases hp : read inFlow indent c with
  | error e =>
    rw [hp] at hd
    cases hd
  | ok p =>
    rw [hp] at hd
    cases hd
    have hlength := (suffix_readFrom hp).length_le
    refine ⟨hlength, fun hlong => ?_⟩
    obtain ⟨hrest, hline, hcolumn⟩ := h (Nat.lt_of_lt_of_le hlong hlength)
    obtain ⟨d', hforked, hp'⟩ := readFrom_forked hrest hp hlong
    refine ⟨d', ?_, hforked⟩
    rw [read, hline, hcolumn, hp']
    rfl

end PlainScalar

namespace QuotedScalar

theorem fork_readSingle (h : Forked X Y t t') (line column : Nat) (acc : Text) (gap : Gap) :
    Fork X Y t.length (readSingle t line column acc gap) (readSingle t' line column acc gap) := by
  induction hn : t.length using Nat.strongRecOn generalizing t t' line column acc gap with
  | _ n ih =>
  subst hn
  refine .of_long (endsIn_readSingle _ _ _ _ _).leaves fun hlong => ?_
  obtain ⟨c, u, u', rfl, rfl, hu, -⟩ := h.next hlong
  have hrest (line column : Nat) (acc : Text) (gap : Gap) := (ih u.length (Nat.lt_succ_self _) hu
    line column acc gap rfl).mono (Nat.le_succ _)
  rw [readSingle, readSingle, h.atDocumentMark hlong]
  refine .ite (hrest _ _ _ _) <| .ite (hrest _ _ _ _) <|
    .ite .error <| .ite ?_ (hrest _ _ _ _)
  refine .mono (m := u.length) ?_ (Nat.le_succ _)
  cases hu with
  | here =>
    refine .past ?_
    split
    · exact .mono (endsIn_readSingle _ _ _ _ _).leaves (Nat.le_succ _)
    · exact .ok (Nat.le_refl _)
  | @cons d v v' tail ends =>
    by_cases hd : d = '\''
    · subst hd
      refine (ih v.length ?_ tail _ _ _ _ rfl).mono (Nat.le_succ _)
      simp only [List.length_cons]
      omega
    · have hok : Fork X Y (d :: v).length
          (.ok ((gap.folded.reverse ++ acc).reverse, ⟨d :: v, line, column + 1⟩))
          (.ok ((gap.folded.reverse ++ acc).reverse, ⟨d :: v', line, column + 1⟩)) :=
        .ok (Nat.le_refl _) fun _ => ⟨.cons tail ends, rfl, rfl⟩
      simpa [hd] using hok

theorem fork_readDouble (h : Forked X Y t t') (line column : Nat) (acc : Text) (gap : Gap)
    (escape : Escape) : Fork X Y t.length (readDouble t line column acc gap escape)
      (readDouble t' line column acc gap escape) := by
  induction h generalizing line column acc gap escape with
  | here => exact .past (endsIn_readDouble _ _ _ _ _ _).leaves
  | @cons c t t' tail ends ih =>
    have hforked : Forked X Y (c :: t) (c :: t') := .cons tail ends
    refine .of_long (endsIn_readDouble _ _ _ _ _ _).leaves fun hlong => ?_
    refine .mono (m := t.length) ?_ (Nat.le_succ _)
    cases escape with
    | none =>
      rw [readDouble, readDouble, hforked.atDocumentMark hlong]
      exact .ite (ih _ _ _ _ _) <| .ite (ih _ _ _ _ _) <|
        .ite .error <|
        .ite (.ok (Nat.le_refl _) fun _ => ⟨tail, rfl, rfl⟩) <|
        .ite (ih _ _ _ _ _) (ih _ _ _ _ _)
    | begun =>
      rw [readDouble, readDouble]
      refine .ite (ih _ _ _ _ _) ?_
      split
      · exact ih _ _ _ _ _
      · split
        · exact ih _ _ _ _ _
        · exact .error
    | digits left value =>
      rw [readDouble, readDouble]
      split
      · exact .error
      · dsimp only
        refine .ite ?_ (ih _ _ _ _ _)
        split
        · exact ih _ _ _ _ _
        · exact .error

theorem fork_read {c c' : Cursor} (h : c.Forked X Y c') (single : Bool) :
    Fork X Y c.rest.length (read single c) (read single c') := by
  unfold read
  refine .mono (m := (c.skip 1).rest.length) ?_ (Cursor.length_skip 1 c)
  dsimp only
  refine .of_long ?_ fun hlong => ?_
  · split
    · exact (endsIn_readSingle _ _ _ _ _).leaves
    · exact (endsIn_readDouble _ _ _ _ _ _).leaves
  · obtain ⟨hrest, hline, hcolumn⟩ := h.skip 1 hlong
    rw [hline, hcolumn]
    exact .ite (fork_readSingle hrest _ _ _ _) (fork_readDouble hrest _ _ _ _ _)

end QuotedScalar

namespace BlockScalar

theorem skipBreaks_forked {indent : Option Nat} {line column deepest k : Nat}
    {breaks breaks' : Text} {c : Cursor} (h : Forked X Y t t')
    (hc : skipBreaks indent t line column deepest breaks = .ok (breaks', k, c))
    (hlong : X.length < c.rest.length) : ∃ c', c.Forked X Y c' ∧
      skipBreaks indent t' line column deepest breaks = .ok (breaks', k, c') := by
  induction h generalizing line column deepest breaks with
  | here => exact absurd hlong (Nat.not_lt.mpr (suffix_skipBreaks hc).length_le)
  | @cons d t t' tail ends ih =>
    rw [skipBreaks] at hc ⊢
    split at hc
    · next hd =>
      rw [if_pos hd]
      exact ih hc
    next hd =>
    rw [if_neg hd]
    split at hc
    · cases hc
    next hd =>
    rw [if_neg hd]
    split at hc
    · next hd =>
      rw [if_pos hd]
      exact ih hc
    next hd =>
    rw [if_neg hd]
    cases hc
    exact ⟨⟨d :: t', line, column⟩, fun _ => ⟨.cons tail ends, rfl, rfl⟩, rfl⟩

theorem fork_readBody (h : Forked X Y t t') (literal : Bool) (indent line column : Nat)
    (inLine : Bool) (b : Body) : Fork X Y t.length (readBody literal indent t line column inLine b)
      (readBody literal indent t' line column inLine b) := by
  induction h generalizing line column inLine b with
  | here => exact .past (endsIn_readBody _ _ _ _ _ _ _).leaves
  | @cons c t t' tail ends ih =>
    have hrest (line column : Nat) (inLine : Bool) (b : Body) :=
      (ih line column inLine b).mono (Nat.le_succ _)
    cases inLine with
    | true =>
      rw [readBody, readBody]
      exact .ite (hrest _ _ _ _) (hrest _ _ _ _)
    | false =>
      rw [readBody, readBody]
      exact .ite (hrest _ _ _ _) <| .ite .error <| .ite (hrest _ _ _ _) <|
        .ite (hrest _ _ _ _) <| .ok (Nat.le_refl _) fun _ => ⟨.cons tail ends, rfl, rfl⟩

theorem fork_indentation {c c' : Cursor} (h : c.Forked X Y c') :
    Fork X Y c.rest.length (indentation c) (indentation c') := by
  have hhead := h.head?
  unfold indentation
  generalize c.rest.head? = x at hhead ⊢
  generalize c'.rest.head? = x' at hhead ⊢
  apply Fork.congr hhead
  intro x
  split
  · exact .ok (Nat.le_refl _) h
  · exact .error
  · exact .ok (Cursor.length_skip 1 c) (h.skip 1)

theorem fork_chomping {c c' : Cursor} (h : c.Forked X Y c') (n : Option Nat) :
    Fork X Y c.rest.length
      (match c.rest.head?.bind chomping? with
        | some k => .ok ((k, n), c.skip 1)
        | none => .ok ((.clip, n), c))
      (match c'.rest.head?.bind chomping? with
        | some k => .ok ((k, n), c'.skip 1)
        | none => .ok ((.clip, n), c')) := by
  have hhead := h.head?
  generalize c.rest.head? = x at hhead ⊢
  generalize c'.rest.head? = x' at hhead ⊢
  apply Fork.congr hhead
  intro x
  split
  · exact .ok (Cursor.length_skip 1 c) (h.skip 1)
  · exact .ok (Nat.le_refl _) h

theorem fork_header {c c' : Cursor} (h : c.Forked X Y c') :
    Fork X Y c.rest.length (header c) (header c') := by
  have hhead := h.head?
  unfold header
  generalize c.rest.head? = x at hhead ⊢
  generalize c'.rest.head? = x' at hhead ⊢
  apply Fork.congr hhead
  intro x
  split
  · exact .bind (.mono (fork_indentation (h.skip 1)) (Cursor.length_skip 1 c))
      fun n d d' hd => .ok (Nat.le_refl _) hd
  · exact .bind (fork_indentation h) fun n d d' hd => fork_chomping hd n

theorem fork_read {c c' : Cursor} (h : c.Forked X Y c') (literal : Bool) (parent : Option Nat) :
    Fork X Y c.rest.length (read literal parent c) (read literal parent c') := by
  unfold read
  refine .bind (.mono (fork_header (h.skip 1)) (Cursor.length_skip 1 c)) fun p d₁ d₁' h₁ => ?_
  obtain ⟨k, increment⟩ := p
  intro text d hd
  dsimp only at hd
  split at hd
  · next d₂ hline =>
    obtain ⟨⟨breaks, deepest, d₃⟩, hbreaks, hd⟩ := bind_eq_ok hd
    obtain ⟨⟨body, d₄⟩, hbody, hd⟩ := bind_eq_ok hd
    cases hd
    have hle₃ := (endsIn_readBody _ _ _ _ _ _ _ _ _ hbody).length_le
    have hle₂ := Nat.le_trans hle₃ (suffix_skipBreaks hbreaks).length_le
    refine ⟨Nat.le_trans hle₂ (Cursor.suffix_endLine hline).length_le, fun hlong => ?_⟩
    have hlong₃ := Nat.lt_of_lt_of_le hlong hle₃
    have hlong₂ := Nat.lt_of_lt_of_le hlong hle₂
    obtain ⟨d₂', hline', h₂⟩ := h₁.endLine? hline hlong₂
    obtain ⟨hrest₂, hline₂, hcolumn₂⟩ := h₂ hlong₂
    rw [← hline₂, ← hcolumn₂] at hbreaks
    obtain ⟨d₃', h₃, hbreaks'⟩ := skipBreaks_forked hrest₂ hbreaks hlong₃
    obtain ⟨hrest₃, hline₃, hcolumn₃⟩ := h₃ hlong₃
    rw [← hline₃, ← hcolumn₃] at hbody
    obtain ⟨d₄', hbody', h₄⟩ := (fork_readBody hrest₃ _ _ _ _ _ _ _ _ hbody).2 hlong
    refine ⟨d₄', ?_, h₄⟩
    simp only [hline', hbreaks', hbody', ok_bind, pure_eq_ok]
  · cases hd

end BlockScalar

namespace Property

theorem fork_taken {c c' : Cursor} (h : c.Forked X Y c') (p : Char → Bool) :
    Fork X Y c.rest.length (taken p c) (taken p c') := by
  have hlength := Cursor.length_skipWhile p c
  refine .of_long (.ok hlength) fun _ => ?_
  refine .mono (.of_long (.ok (Nat.le_refl _)) fun hlong => ?_) hlength
  have hrest := (h (Nat.lt_of_lt_of_le hlong hlength)).1
  rw [taken, taken, hrest.takeWhile p hlong]
  exact .ok (Nat.le_refl _) (h.skipWhile p)

theorem endsAnchor_forked {c c' : Cursor} (h : c.Forked X Y c')
    (hlong : X.length < c.rest.length) : endsAnchor c'.rest = endsAnchor c.rest := by
  rw [endsAnchor, endsAnchor, h.atSpace hlong, h.head? hlong]

theorem fork_anchorName {c c' : Cursor} (h : c.Forked X Y c') :
    Fork X Y c.rest.length (anchorName c) (anchorName c') := by
  have hname := (fork_taken (h.skip 1) isWord).mono (Cursor.length_skip 1 c)
  refine hname.bind fun name d d' hd => ?_
  refine .ite_of_long (fun hlong => ?_) (.ok (Nat.le_refl _) hd) .error
  rw [endsAnchor_forked hd hlong]

theorem fork_uriFrom (h : Forked X Y t t') (verbatim : Bool) (line column : Nat) (acc : Text)
    (escape : Escape) : Fork X Y t.length (uriFrom verbatim line t column acc escape)
      (uriFrom verbatim line t' column acc escape) := by
  induction h generalizing column acc escape with
  | here => exact .past (endsIn_uriFrom _ _ _ _ _ _).leaves
  | @cons c t t' tail ends ih =>
    have hrest (column : Nat) (acc : Text) (escape : Escape) :=
      (ih column acc escape).mono (Nat.le_succ _)
    cases escape with
    | none =>
      rw [uriFrom, uriFrom]
      exact .ite (.ok (Nat.le_refl _) fun _ => ⟨.cons tail ends, rfl, rfl⟩) <|
        .ite (hrest _ _ _) (hrest _ _ _)
    | lead | nextSign =>
      rw [uriFrom, uriFrom]
      split
      · exact hrest _ _ _
      · exact .error
    | leadDigit high =>
      rw [uriFrom, uriFrom]
      split
      · exact .error
      · dsimp only
        split
        · exact .error
        · exact hrest _ _ _
        · exact hrest _ _ _
    | next left value =>
      rw [uriFrom, uriFrom]
      exact .ite (hrest _ _ _) .error
    | nextDigit left value high =>
      rw [uriFrom, uriFrom]
      split
      · exact .error
      · exact .ite .error <| .ite (hrest _ _ _) (hrest _ _ _)

theorem fork_uri {c c' : Cursor} (h : c.Forked X Y c') (verbatim : Bool) (begun : Text) :
    Fork X Y c.rest.length (uri verbatim begun c) (uri verbatim begun c') := by
  refine .bind (.of_long (endsIn_uriFrom _ _ _ _ _ _).leaves fun hlong => ?_)
    fun _ _ _ hd => .ok (Nat.le_refl _) hd
  obtain ⟨hrest, hline, hcolumn⟩ := h hlong
  rw [hline, hcolumn]
  exact fork_uriFrom hrest _ _ _ _ _

theorem fork_handle {c c' : Cursor} (h : c.Forked X Y c') :
    Fork X Y (c.skip 1).rest.length (handle c) (handle c') := by
  refine .ite_of_long (fun hlong => ?_) ?_ .error
  · rw [h.head? (Nat.lt_of_lt_of_le hlong (Cursor.length_skip 1 c))]
  · refine .bind (fork_taken (h.skip 1) _) fun word d d' hd => ?_
    refine .ite_of_long (fun hlong => ?_) (.ok (Cursor.length_skip 1 d) (hd.skip 1))
      (.ok (Nat.le_refl _) hd)
    rw [hd.head? hlong]

theorem fork_tagBody {c c' : Cursor} (h : c.Forked X Y c') :
    Fork X Y (c.skip 1).rest.length (tagBody c) (tagBody c') := by
  refine .ite_of_long (fun hlong => ?_) ?_ ?_
  · have hhead : (c'.rest.drop 1).head? = (c.rest.drop 1).head? := (h.skip 1).head? hlong
    rw [hhead]
  · have hlength : (c.skip 2).rest.length ≤ (c.skip 1).rest.length := by
      simp only [Cursor.skip, List.length_drop]
      omega
    refine .bind (.mono (fork_uri (h.skip 2) _ _) hlength) fun suffix d d' hd => .ite .error ?_
    refine .ite_of_long (fun hlong => ?_) (.ok (Cursor.length_skip 1 d) (hd.skip 1)) .error
    rw [hd.head? hlong]
  · refine .bind (fork_handle h) fun handle d d' hd => .ite ?_ ?_
    · exact .bind (fork_uri hd _ _) fun suffix e e' he => .ite .error (.ok (Nat.le_refl _) he)
    · exact .bind (fork_uri hd _ _) fun suffix e e' he => .ok (Nat.le_refl _) he

theorem fork_tag {c c' : Cursor} (h : c.Forked X Y c') (inFlow : Bool) :
    Fork X Y c.rest.length (tag inFlow c) (tag inFlow c') := by
  refine .bind (.mono (fork_tagBody h) (Cursor.length_skip 1 c)) fun t d d' hd => ?_
  refine .ite_of_long (fun hlong => ?_) (.ok (Nat.le_refl _) hd) .error
  rw [hd.atSpace hlong, hd.head? hlong]

theorem fork_versionNumber {c c' : Cursor} (h : c.Forked X Y c') :
    Fork X Y c.rest.length (versionNumber c) (versionNumber c') := by
  refine .bind (fork_taken h _) fun digits d d' hd => ?_
  dsimp only
  split
  · exact .ite (.ok (Nat.le_refl _) hd) .error
  · exact .error

theorem fork_versionDirective {c c' : Cursor} (h : c.Forked X Y c') :
    Fork X Y c.rest.length (versionDirective c) (versionDirective c') := by
  have hmajor := (fork_versionNumber (h.skipWhile isBlank)).mono (Cursor.length_skipWhile _ c)
  refine hmajor.bind fun major d d' hd => ?_
  have hminor := (fork_versionNumber (hd.skip 1)).mono (Cursor.length_skip 1 d)
  refine .ite_of_long (fun hlong => ?_) ?_ .error
  · rw [hd.head? hlong]
  · exact hminor.bind fun minor e e' he => .ok (Nat.le_refl _) he

theorem fork_tagDirective {c c' : Cursor} (h : c.Forked X Y c') :
    Fork X Y c.rest.length (tagDirective c) (tagDirective c') := by
  have hlength : ((c.skipWhile isBlank).skip 1).rest.length ≤ c.rest.length :=
    Nat.le_trans (Cursor.length_skip 1 _) (Cursor.length_skipWhile _ c)
  refine .bind (.mono (fork_handle (h.skipWhile _)) hlength) fun handle d d' hd => .ite .error ?_
  refine .ite_of_long (fun hlong => ?_) .error ?_
  · rw [hd.head? hlong]
  have hstem (verbatim : Bool) (begun : Text) :=
    (fork_uri (hd.skipWhile isBlank) verbatim begun).mono (Cursor.length_skipWhile _ d)
  refine .bind (hstem _ _) fun stem e e' he => ?_
  refine .ite_of_long (fun hlong => ?_) .error (.ok (Nat.le_refl _) he)
  rw [he.atSpace hlong]

theorem fork_endDirective {c c' : Cursor} (h : c.Forked X Y c') (t : Token) :
    Fork X Y c.rest.length (endDirective t c) (endDirective t c') := by
  intro u d hd
  unfold endDirective at hd ⊢
  split at hd
  · next e he =>
    cases hd
    refine ⟨(Cursor.suffix_endLine he).length_le, fun hlong => ?_⟩
    obtain ⟨e', he', hforked⟩ := h.endLine? he hlong
    exact ⟨e', by rw [he'], hforked⟩
  · cases hd

theorem fork_directive {c c' : Cursor} (h : c.Forked X Y c') :
    Fork X Y c.rest.length (directive c) (directive c') := by
  have hname := (fork_taken (h.skip 1) isWord).mono (Cursor.length_skip 1 c)
  refine hname.bind fun name d d' hd => ?_
  refine .ite_of_long (fun hlong => ?_) .error ?_
  · rw [hd.atSpace hlong]
  refine .ite ?_ (.ite ?_ .error)
  · exact .bind (fork_versionDirective hd) fun t e e' he => fork_endDirective he t
  · exact .bind (fork_tagDirective hd) fun t e e' he => fork_endDirective he t

end Property
end VersionDrift.Yaml
