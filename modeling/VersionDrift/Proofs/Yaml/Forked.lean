import VersionDrift.Proofs.Yaml.Forward

/-!
# Texts with a common beginning

Two texts that agree up to a blank are read alike for as long as the reading stays
before that blank: nothing looks further ahead than the end of a word.
-/

set_option autoImplicit false

namespace VersionDrift.Yaml

/-- The texts go on with `X` and `Y` after a common beginning, which is empty or ends with a
blank. -/
inductive Forked (X Y : Text) : Text → Text → Prop
  | here : Forked X Y X Y
  | cons {c : Char} {t t' : Text} (tail : Forked X Y t t')
      (ends : X.length < t.length ∨ isBlank c = true) : Forked X Y (c :: t) (c :: t')

namespace Forked

variable {X Y t t' : Text} {c : Char}

theorem of_append {q : Text} (hq : ∀ b ∈ q.getLast?, isBlank b = true) :
    Forked X Y (q ++ X) (q ++ Y) := by
  induction q with
  | nil => exact .here
  | cons c q ih =>
    cases q with
    | nil => exact .cons .here (.inr (hq c (by simp)))
    | cons d q =>
      have hlong : X.length < (d :: q ++ X).length := by
        rw [List.length_append, List.length_cons]
        omega
      exact .cons (ih fun b hb => hq b (by rwa [List.getLast?_cons_cons])) (.inl hlong)

theorem eq_append (h : Forked X Y t t') : ∃ q, t = q ++ X ∧ t' = q ++ Y := by
  induction h with
  | here => exact ⟨[], rfl, rfl⟩
  | @cons c t t' tail ends ih =>
    obtain ⟨q, rfl, rfl⟩ := ih
    exact ⟨c :: q, rfl, rfl⟩

theorem next (h : Forked X Y t t') (hlong : X.length < t.length) : ∃ c u u', t = c :: u ∧
    t' = c :: u' ∧ Forked X Y u u' ∧ (X.length < u.length ∨ isBlank c = true) := by
  cases h with
  | here => exact absurd hlong (Nat.lt_irrefl _)
  | cons tail ends => exact ⟨_, _, _, rfl, rfl, tail, ends⟩

theorem head? (h : Forked X Y t t') (hlong : X.length < t.length) : t'.head? = t.head? := by
  obtain ⟨c, u, u', rfl, rfl, -, -⟩ := h.next hlong
  rfl

theorem atSpace (h : Forked X Y t t') (hlong : X.length < t.length) :
    Yaml.atSpace t' = Yaml.atSpace t := by
  obtain ⟨c, u, u', rfl, rfl, -, -⟩ := h.next hlong
  rfl

theorem length_eq (h : Forked X Y t t') : t.length + Y.length = t'.length + X.length := by
  induction h with
  | here => exact Nat.add_comm _ _
  | cons tail ends ih =>
    simp only [List.length_cons]
    omega

theorem symm (h : Forked X Y t t') : Forked Y X t' t := by
  induction h with
  | here => exact .here
  | cons tail ends ih =>
    have hlength := tail.length_eq
    exact .cons ih (ends.imp_left (by omega))

theorem atDocumentMark_of_eq_true (h : Forked X Y t t') (hlong : X.length < t.length)
    (hmark : Yaml.atDocumentMark t = true) : Yaml.atDocumentMark t' = true := by
  have hstep {a : Char} {u : Text} (ha : a = '-' ∨ a = '.')
      (ends : X.length < u.length ∨ isBlank a = true) : X.length < u.length := by
    refine ends.resolve_right ?_
    rcases ha with rfl | rfl <;> decide
  unfold Yaml.atDocumentMark at hmark
  split at hmark
  · next a b c r =>
    simp only [Bool.and_eq_true, Bool.or_eq_true, decide_eq_true_eq] at hmark
    obtain ⟨⟨⟨rfl, rfl⟩, ha⟩, hspace⟩ := hmark
    cases h with
    | here => exact absurd hlong (Nat.lt_irrefl _)
    | cons h ends =>
    have hlong := hstep ha ends
    cases h with
    | here => exact absurd hlong (Nat.lt_irrefl _)
    | cons h ends =>
    have hlong := hstep ha ends
    cases h with
    | here => exact absurd hlong (Nat.lt_irrefl _)
    | cons h ends =>
    rw [← h.atSpace (hstep ha ends)] at hspace
    simp [Yaml.atDocumentMark, hspace, ha]
  · cases hmark

theorem atDocumentMark (h : Forked X Y t t') (hlong : X.length < t.length) :
    Yaml.atDocumentMark t' = Yaml.atDocumentMark t := by
  have hlength := h.length_eq
  have hlong' : Y.length < t'.length := by omega
  exact Bool.eq_iff_iff.mpr
    ⟨h.symm.atDocumentMark_of_eq_true hlong', h.atDocumentMark_of_eq_true hlong⟩

theorem badColon_cons (c : Char) (t : Text) : PlainScalar.badColon (c :: t) =
    (decide (c = ':') && t.head?.any fun d => isFlowIndicator d || d = '?') := by
  by_cases hc : c = ':'
  · cases t <;> simp [PlainScalar.badColon, hc]
  · simp [PlainScalar.badColon, hc]

theorem badColon (h : Forked X Y t t') (hlong : X.length < t.length) :
    PlainScalar.badColon t' = PlainScalar.badColon t := by
  obtain ⟨c, u, u', rfl, rfl, hu, hc⟩ := h.next hlong
  rw [badColon_cons, badColon_cons]
  rcases hc with hlong | hblank
  · rw [hu.head? hlong]
  · have hcolon : c ≠ ':' := by
      rintro rfl
      cases hblank
    simp only [hcolon, decide_false, Bool.false_and]

theorem atEnd (h : Forked X Y t t') (hlong : X.length < t.length) (inFlow : Bool) :
    PlainScalar.atEnd inFlow t' = PlainScalar.atEnd inFlow t := by
  obtain ⟨c, u, u', rfl, rfl, hu, hc⟩ := h.next hlong
  rcases hc with hlong | hblank
  · rw [PlainScalar.atEnd, PlainScalar.atEnd, hu.atSpace hlong]
  · have hcolon : c ≠ ':' := by
      rintro rfl
      cases hblank
    simp only [PlainScalar.atEnd, hcolon, decide_false, Bool.false_and]

theorem stopsAfterGap (h : Forked X Y t t') (hlong : X.length < t.length) (inFlow : Bool)
    (indent column : Nat) : PlainScalar.stopsAfterGap inFlow indent column t' =
      PlainScalar.stopsAfterGap inFlow indent column t := by
  rw [PlainScalar.stopsAfterGap, PlainScalar.stopsAfterGap, h.atDocumentMark hlong, h.head? hlong]

theorem drop (h : Forked X Y t t') (k : Nat) (hlong : X.length < (t.drop k).length) :
    Forked X Y (t.drop k) (t'.drop k) := by
  induction k generalizing t t' with
  | zero => exact h
  | succ k ih =>
    cases h with
    | here =>
      rw [List.length_drop] at hlong
      omega
    | cons tail ends => exact ih tail hlong

theorem takeWhile (h : Forked X Y t t') (p : Char → Bool)
    (hlong : X.length < (t.drop (t.takeWhile p).length).length) :
    t'.takeWhile p = t.takeWhile p := by
  induction h with
  | here =>
    rw [List.length_drop] at hlong
    omega
  | @cons c t t' tail ends ih =>
    rw [List.takeWhile_cons] at hlong ⊢
    rw [List.takeWhile_cons]
    by_cases hc : p c = true
    · rw [if_pos hc] at hlong
      rw [if_pos hc, if_pos hc, ih hlong]
    · rw [if_neg hc, if_neg hc]

end Forked

def Cursor.Forked (X Y : Text) (c c' : Cursor) : Prop :=
  X.length < c.rest.length →
    Yaml.Forked X Y c.rest c'.rest ∧ c'.line = c.line ∧ c'.column = c.column

namespace Cursor.Forked

variable {X Y : Text} {c c' : Cursor}

theorem head? (h : c.Forked X Y c') (hlong : X.length < c.rest.length) :
    c'.rest.head? = c.rest.head? :=
  (h hlong).1.head? hlong

theorem atSpace (h : c.Forked X Y c') (hlong : X.length < c.rest.length) :
    Yaml.atSpace c'.rest = Yaml.atSpace c.rest :=
  (h hlong).1.atSpace hlong

theorem skip (h : c.Forked X Y c') (k : Nat) : (c.skip k).Forked X Y (c'.skip k) := by
  intro hlong
  obtain ⟨hrest, hline, hcolumn⟩ := h (Nat.lt_of_lt_of_le hlong (length_skip k c))
  exact ⟨hrest.drop k hlong, hline, by rw [Cursor.skip, hcolumn]; rfl⟩

theorem skipWhile (h : c.Forked X Y c') (p : Char → Bool) :
    (c.skipWhile p).Forked X Y (c'.skipWhile p) := by
  intro hlong
  have hrest := (h (Nat.lt_of_lt_of_le hlong (length_skipWhile p c))).1
  rw [Cursor.skipWhile] at hlong
  rw [Cursor.skipWhile, Cursor.skipWhile, hrest.takeWhile p hlong]
  exact h.skip _ hlong

theorem skipBreak (h : c.Forked X Y c') : c.skipBreak.Forked X Y c'.skipBreak := by
  intro hlong
  obtain ⟨hforked, hline, hcolumn⟩ := h (Nat.lt_of_lt_of_le hlong (length_skipBreak c))
  obtain ⟨b, u, u', hrest, hrest', hu, -⟩ :=
    hforked.next (Nat.lt_of_lt_of_le hlong (length_skipBreak c))
  unfold Cursor.skipBreak
  rw [hrest, hrest']
  dsimp only
  split
  · exact ⟨hu, by rw [hline], rfl⟩
  · exact ⟨hforked, hline, hcolumn⟩

theorem skipComment (h : c.Forked X Y c') : c.skipComment.Forked X Y c'.skipComment := by
  intro hlong
  have hlong' := Nat.lt_of_lt_of_le hlong (length_skipComment c)
  obtain ⟨b, u, u', hrest, hrest', -, -⟩ := (h hlong').1.next hlong'
  unfold Cursor.skipComment at hlong ⊢
  rw [hrest] at hlong ⊢
  rw [hrest']
  by_cases hb : b = '#'
  · subst hb
    exact h.skipWhile _ hlong
  · simpa [hb] using h hlong'

theorem endLine? (h : c.Forked X Y c') {d : Cursor} (hd : c.endLine? = some d)
    (hlong : X.length < d.rest.length) : ∃ d', c'.endLine? = some d' ∧ d.Forked X Y d' := by
  unfold Cursor.endLine? at hd ⊢
  dsimp only at hd ⊢
  have hcomment := (h.skipWhile isBlank).skipComment
  have hrest : X.length < (c.skipWhile isBlank).skipComment.rest.length := by
    split at hd
    · cases hd
      exact hlong
    · split at hd
      · cases hd
        exact Nat.lt_of_lt_of_le hlong (length_skipBreak _)
      · cases hd
  obtain ⟨b, u, u', heq, heq', -, -⟩ := (hcomment hrest).1.next hrest
  rw [heq] at hd
  rw [heq']
  dsimp only at hd ⊢
  split at hd
  · next hb =>
    cases hd
    exact ⟨_, if_pos hb, hcomment.skipBreak⟩
  · cases hd

end Cursor.Forked

/-- A successful reading leaves at most `n` characters; and if it ends before the fork, the other
one gives the same and ends at the same place. -/
def Fork {α : Type} (X Y : Text) (n : Nat) (f f' : Except Error (α × Cursor)) : Prop :=
  ∀ a c, f = .ok (a, c) → c.rest.length ≤ n ∧
    (X.length < c.rest.length → ∃ c', f' = .ok (a, c') ∧ c.Forked X Y c')

namespace Fork

variable {α β : Type} {X Y : Text} {f f' g g' : Except Error (α × Cursor)} {n : Nat}

theorem ok {a : α} {c c' : Cursor} (hn : c.rest.length ≤ n) (h : c.Forked X Y c') :
    Fork X Y n (.ok (a, c)) (.ok (a, c')) := by
  intro b d hd
  cases hd
  exact ⟨hn, fun _ => ⟨c', rfl, h⟩⟩

theorem error {e : Error} : Fork X Y n (.error e) f' := by
  intro a c h
  cases h

theorem mono {m : Nat} (hf : Fork X Y m f f') (h : m ≤ n) : Fork X Y n f f' :=
  fun a c hc => (hf a c hc).imp_left fun hm => Nat.le_trans hm h

theorem of_long (hf : Leaves n f) (h : X.length < n → Fork X Y n f f') : Fork X Y n f f' := by
  intro a c hc
  have hn := hf a c hc
  exact ⟨hn, fun hlong => (h (Nat.lt_of_lt_of_le hlong hn) a c hc).2 hlong⟩

theorem past (hf : Leaves X.length f) : Fork X Y X.length f f' :=
  of_long hf fun h => absurd h (Nat.lt_irrefl _)

theorem congr {γ : Type} {F F' : γ → Except Error (α × Cursor)} {x x' : γ}
    (hx : X.length < n → x' = x) (h : ∀ x, Fork X Y n (F x) (F' x)) :
    Fork X Y n (F x) (F' x') := by
  intro a c hc
  refine ⟨(h x a c hc).1, fun hlong => ?_⟩
  rw [hx (Nat.lt_of_lt_of_le hlong (h x a c hc).1)]
  exact (h x a c hc).2 hlong

theorem ite {p : Prop} [Decidable p] (hf : Fork X Y n f f') (hg : Fork X Y n g g') :
    Fork X Y n (if p then f else g) (if p then f' else g') := by
  split
  · exact hf
  · exact hg

theorem ite_of_long {p p' : Prop} [Decidable p] [Decidable p'] (hp : X.length < n → (p' ↔ p))
    (hf : Fork X Y n f f') (hg : Fork X Y n g g') :
    Fork X Y n (if p then f else g) (if p' then f' else g') := by
  intro a c hc
  split at hc
  · next h =>
    refine ⟨(hf a c hc).1, fun hlong => ?_⟩
    rw [if_pos ((hp (Nat.lt_of_lt_of_le hlong (hf a c hc).1)).mpr h)]
    exact (hf a c hc).2 hlong
  · next h =>
    refine ⟨(hg a c hc).1, fun hlong => ?_⟩
    rw [if_neg (mt (hp (Nat.lt_of_lt_of_le hlong (hg a c hc).1)).mp h)]
    exact (hg a c hc).2 hlong

theorem bind {g g' : α × Cursor → Except Error (β × Cursor)} (hf : Fork X Y n f f')
    (hg : ∀ a c c', c.Forked X Y c' → Fork X Y c.rest.length (g (a, c)) (g' (a, c'))) :
    Fork X Y n (f >>= g) (f' >>= g') := by
  intro b d h
  obtain ⟨⟨a, c⟩, ha, hb⟩ := bind_eq_ok h
  obtain ⟨hn, hfork⟩ := hf a c ha
  by_cases hlong : X.length < c.rest.length
  · obtain ⟨c', hc', hforked⟩ := hfork hlong
    obtain ⟨hd, hforks⟩ := hg a c c' hforked b d hb
    rw [hc']
    exact ⟨Nat.le_trans hd hn, hforks⟩
  · have hd := (hg a c c (fun h => absurd h hlong) b d hb).1
    exact ⟨Nat.le_trans hd hn, fun h => absurd (Nat.lt_of_lt_of_le h hd) hlong⟩

end Fork
end VersionDrift.Yaml
