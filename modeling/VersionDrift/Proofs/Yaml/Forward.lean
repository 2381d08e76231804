import VersionDrift.Yaml.Tokens
import VersionDrift.Proofs.Yaml.Lockstep

/-!
# Reading forward

Whatever is read, a suffix of the text is left.
-/

set_option autoImplicit false

namespace VersionDrift.Yaml

/-- What is left after a successful reading is a suffix of the text. -/
def EndsIn {α : Type} (t : Text) (f : Except Error (α × Cursor)) : Prop :=
  ∀ a c, f = .ok (a, c) → c.rest <:+ t

namespace EndsIn

variable {α β : Type} {t u : Text} {f g : Except Error (α × Cursor)}

theorem ok {a : α} {c : Cursor} (h : c.rest <:+ t) : EndsIn t (.ok (a, c)) := by
  intro b d hd
  cases hd
  exact h

theorem error {e : Error} : EndsIn t (.error e : Except Error (α × Cursor)) := by
  intro a c h
  cases h

theorem mono (hf : EndsIn u f) (h : u <:+ t) : EndsIn t f :=
  fun a c hc => (hf a c hc).trans h

theorem ite {p : Prop} [Decidable p] (hf : EndsIn t f) (hg : EndsIn t g) :
    EndsIn t (if p then f else g) := by
  split
  · exact hf
  · exact hg

theorem bind {g : α × Cursor → Except Error (β × Cursor)} (hf : EndsIn t f)
    (hg : ∀ a c, EndsIn c.rest (g (a, c))) : EndsIn t (f >>= g) := by
  intro b d h
  obtain ⟨⟨a, c⟩, hc, hd⟩ := bind_eq_ok h
  exact (hg a c b d hd).trans (hf a c hc)

end EndsIn

def Leaves {α : Type} (n : Nat) (f : Except Error (α × Cursor)) : Prop :=
  ∀ a c, f = .ok (a, c) → c.rest.length ≤ n

namespace Leaves

variable {α : Type} {n : Nat} {f : Except Error (α × Cursor)}

theorem ok {a : α} {c : Cursor} (h : c.rest.length ≤ n) : Leaves n (.ok (a, c)) := by
  intro b d hd
  cases hd
  exact h

theorem mono {m : Nat} (hf : Leaves m f) (h : m ≤ n) : Leaves n f :=
  fun a c hc => Nat.le_trans (hf a c hc) h

end Leaves

theorem EndsIn.leaves {α : Type} {t : Text} {f : Except Error (α × Cursor)} (hf : EndsIn t f) :
    Leaves t.length f :=
  fun a c hc => (hf a c hc).length_le

namespace Cursor

variable (c : Cursor)

theorem suffix_skip (k : Nat) : (c.skip k).rest <:+ c.rest := List.drop_suffix k c.rest

theorem length_skip (k : Nat) (c : Cursor) : (c.skip k).rest.length ≤ c.rest.length :=
  (c.suffix_skip k).length_le

theorem suffix_skipWhile (p : Char → Bool) : (c.skipWhile p).rest <:+ c.rest := c.suffix_skip _

theorem length_skipWhile (p : Char → Bool) (c : Cursor) :
    (c.skipWhile p).rest.length ≤ c.rest.length :=
  (c.suffix_skipWhile p).length_le

theorem suffix_skipBreak : c.skipBreak.rest <:+ c.rest := by
  unfold skipBreak
  split
  · next b r h =>
    split
    · rw [h]
      exact List.suffix_cons b r
    · exact List.suffix_rfl
  · exact List.suffix_rfl

theorem length_skipBreak (c : Cursor) : c.skipBreak.rest.length ≤ c.rest.length :=
  c.suffix_skipBreak.length_le

theorem suffix_skipComment : c.skipComment.rest <:+ c.rest := by
  unfold skipComment
  split
  · exact c.suffix_skipWhile _
  · exact List.suffix_rfl

theorem length_skipComment (c : Cursor) : c.skipComment.rest.length ≤ c.rest.length :=
  c.suffix_skipComment.length_le

variable {c}

theorem suffix_endLine {d : Cursor} (h : c.endLine? = some d) : d.rest <:+ c.rest := by
  have hline := ((c.skipWhile isBlank).suffix_skipComment).trans (c.suffix_skipWhile _)
  unfold endLine? at h
  dsimp only at h
  split at h
  · cases h
    exact hline
  · split at h
    · cases h
      exact (suffix_skipBreak _).trans hline
    · cases h

end Cursor

theorem suffix_skipSpace (inFlow : Bool) (t : Text) (line column : Nat)
    (keyAllowed inComment : Bool) :
    (skipSpace inFlow t line column keyAllowed inComment).1.rest <:+ t := by
  fun_induction skipSpace
  all_goals first
    | exact List.suffix_rfl
    | next ih => exact ih.trans (List.suffix_cons ..)

namespace PlainScalar

variable {inFlow : Bool} {indent : Nat} {p : PlainScalar}

theorem suffix_readFrom {t : Text} {line column : Nat} {acc : Text} {gap : Gap}
    (h : readFrom inFlow indent t line column acc gap = .ok p) : p.rest.rest <:+ t := by
  fun_induction readFrom with
  | case1 => cases h; exact List.suffix_rfl
  | case2 => cases h
  | case3 _ _ _ _ _ _ _ _ ih => exact (ih h).trans (List.suffix_cons ..)
  | case4 _ _ _ _ _ _ _ _ ih => exact (ih h).trans (List.suffix_cons ..)
  | case5 => cases h; exact List.suffix_rfl
  | case6 => cases h
  | case7 => cases h; exact List.suffix_rfl
  | case8 _ _ _ _ _ _ _ _ _ _ _ ih => exact (ih h).trans (List.suffix_cons ..)

theorem suffix_read {c : Cursor} {d : Char} {t : Text} (hrest : c.rest = d :: t)
    (hblank : isBlank d = false) (hbreak : isBreak d = false) (hend : atEnd inFlow (d :: t) = false)
    (h : read inFlow indent c = .ok p) : p.rest.rest <:+ t := by
  rw [read, hrest, readFrom] at h
  simp only [hblank, hbreak, hend, Gap.empty, Gap.isEmpty, Bool.not_true, Bool.false_and,
    Bool.false_eq_true, if_false] at h
  split at h
  · cases h
  · exact suffix_readFrom h

end PlainScalar

namespace QuotedScalar

theorem endsIn_readSingle (t : Text) (line column : Nat) (acc : Text) (gap : Gap) :
    EndsIn t (readSingle t line column acc gap) := by
  fun_induction readSingle
  all_goals first
    | exact .error
    | exact .ok (List.suffix_cons ..)
    | next ih => exact ih.mono (List.suffix_cons ..)
    | next ih => exact ih.mono ((List.suffix_cons ..).trans (List.suffix_cons ..))

theorem endsIn_readDouble (t : Text) (line column : Nat) (acc : Text) (gap : Gap)
    (escape : Escape) : EndsIn t (readDouble t line column acc gap escape) := by
  fun_induction readDouble
  all_goals first
    | exact .error
    | exact .ok (List.suffix_cons ..)
    | next ih => exact ih.mono (List.suffix_cons ..)

theorem endsIn_read (single : Bool) (c : Cursor) : EndsIn (c.rest.drop 1) (read single c) := by
  unfold read
  cases single with
  | false => exact endsIn_readDouble _ _ _ _ _ _
  | true => exact endsIn_readSingle _ _ _ _ _

end QuotedScalar

namespace BlockScalar

theorem endsIn_indentation (c : Cursor) : EndsIn c.rest (indentation c) := by
  unfold indentation
  split
  · exact .ok List.suffix_rfl
  · exact .error
  · exact .ok (c.suffix_skip 1)

theorem endsIn_header (c : Cursor) : EndsIn c.rest (header c) := by
  unfold header
  split
  · exact .bind ((endsIn_indentation _).mono (c.suffix_skip 1)) fun _ _ => .ok List.suffix_rfl
  · refine .bind (endsIn_indentation c) fun n d => ?_
    dsimp only
    split
    · exact .ok (d.suffix_skip 1)
    · exact .ok List.suffix_rfl

theorem suffix_skipBreaks {indent : Option Nat} {t : Text} {line column deepest k : Nat}
    {breaks breaks' : Text} {c : Cursor}
    (h : skipBreaks indent t line column deepest breaks = .ok (breaks', k, c)) : c.rest <:+ t := by
  fun_induction skipBreaks
  all_goals first
    | next ih => exact (ih h).trans (List.suffix_cons ..)
    | cases h; done
    | cases h; exact List.suffix_rfl

theorem endsIn_readBody (literal : Bool) (indent : Nat) (t : Text) (line column : Nat)
    (inLine : Bool) (b : Body) : EndsIn t (readBody literal indent t line column inLine b) := by
  fun_induction readBody
  all_goals first
    | exact .error
    | exact .ok List.suffix_rfl
    | next ih => exact ih.mono (List.suffix_cons ..)

theorem endsIn_read (literal : Bool) (parent : Option Nat) (c : Cursor) :
    EndsIn (c.rest.drop 1) (read literal parent c) := by
  unfold read
  refine .bind (endsIn_header (c.skip 1)) fun p d => ?_
  dsimp only
  split
  · next e he =>
    intro text f h
    obtain ⟨⟨breaks, deepest, g⟩, hg, h⟩ := bind_eq_ok h
    have hbody := endsIn_readBody literal
      ((p.2.map (parent.getD 0 + ·)).getD (max deepest (max (parent.elim 0 (· + 1)) 1))) g.rest
      g.line g.column false ⟨[], none, breaks, false⟩
    obtain ⟨⟨body, k⟩, hk, h⟩ := bind_eq_ok h
    cases h
    exact (hbody body _ hk).trans ((suffix_skipBreaks hg).trans (Cursor.suffix_endLine he))
  · exact .error

end BlockScalar

namespace Property

theorem endsIn_taken (p : Char → Bool) (c : Cursor) : EndsIn c.rest (taken p c) :=
  .ok (c.suffix_skipWhile p)

theorem endsIn_anchorName (c : Cursor) : EndsIn (c.rest.drop 1) (anchorName c) :=
  .bind (endsIn_taken isWord (c.skip 1)) fun _ _ => .ite (.ok List.suffix_rfl) .error

theorem endsIn_uriFrom (verbatim : Bool) (line : Nat) (t : Text) (column : Nat) (acc : Text)
    (escape : Escape) : EndsIn t (uriFrom verbatim line t column acc escape) := by
  fun_induction uriFrom
  all_goals first
    | exact .error
    | exact .ok List.suffix_rfl
    | next ih => exact ih.mono (List.suffix_cons ..)

theorem endsIn_uri (verbatim : Bool) (begun : Text) (c : Cursor) :
    EndsIn c.rest (uri verbatim begun c) :=
  .bind (endsIn_uriFrom _ _ _ _ _ _) fun _ _ => .ok List.suffix_rfl

theorem endsIn_handle (c : Cursor) : EndsIn (c.rest.drop 1) (handle c) :=
  .ite (.bind (endsIn_taken isWord (c.skip 1)) fun _ d =>
    .ite (.ok (d.suffix_skip 1)) (.ok List.suffix_rfl)) .error

theorem endsIn_tagBody (c : Cursor) : EndsIn (c.rest.drop 1) (tagBody c) := by
  have hverbatim : (c.skip 2).rest <:+ c.rest.drop 1 := by
    simpa [List.drop_drop] using List.drop_suffix 1 (c.rest.drop 1)
  refine .ite ?_ ?_
  · refine .bind ((endsIn_uri true [] (c.skip 2)).mono hverbatim) fun _ d => .ite .error ?_
    exact .ite (.ok (d.suffix_skip 1)) .error
  · refine .bind (endsIn_handle c) fun h d => .ite ?_ ?_
    · exact .bind (endsIn_uri false [] d) fun _ _ => .ite .error (.ok List.suffix_rfl)
    · exact .bind (endsIn_uri false h.tail d) fun _ _ => .ok List.suffix_rfl

theorem endsIn_tag (inFlow : Bool) (c : Cursor) : EndsIn (c.rest.drop 1) (tag inFlow c) :=
  .bind (endsIn_tagBody c) fun _ _ => .ite (.ok List.suffix_rfl) .error

theorem endsIn_versionNumber (c : Cursor) : EndsIn c.rest (versionNumber c) := by
  refine .bind (endsIn_taken _ c) fun digits d => ?_
  dsimp only
  split
  · exact .ite (.ok List.suffix_rfl) .error
  · exact .error

theorem endsIn_versionDirective (c : Cursor) : EndsIn c.rest (versionDirective c) := by
  refine .bind ((endsIn_versionNumber _).mono (c.suffix_skipWhile isBlank)) fun major d => ?_
  refine .ite ?_ .error
  exact .bind ((endsIn_versionNumber _).mono (d.suffix_skip 1)) fun _ _ => .ok List.suffix_rfl

theorem endsIn_tagDirective (c : Cursor) : EndsIn c.rest (tagDirective c) := by
  have hhandle := ((endsIn_handle (c.skipWhile isBlank)).mono (List.drop_suffix 1 _)).mono
    (c.suffix_skipWhile isBlank)
  refine .bind hhandle fun _ d => .ite .error (.ite .error ?_)
  refine .bind ((endsIn_uri true [] _).mono (d.suffix_skipWhile isBlank)) fun _ _ => ?_
  exact .ite .error (.ok List.suffix_rfl)

theorem endsIn_endDirective (t : Token) (c : Cursor) : EndsIn c.rest (endDirective t c) := by
  unfold endDirective
  split
  · next h => exact .ok (Cursor.suffix_endLine h)
  · exact .error

theorem endsIn_directive (c : Cursor) : EndsIn (c.rest.drop 1) (directive c) := by
  refine .bind (endsIn_taken isWord (c.skip 1)) fun _ d => .ite .error (.ite ?_ (.ite ?_ .error))
  · exact .bind (endsIn_versionDirective d) fun t e => endsIn_endDirective t e
  · exact .bind (endsIn_tagDirective d) fun t e => endsIn_endDirective t e

end Property
end VersionDrift.Yaml
