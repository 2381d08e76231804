import VersionDrift.Proofs.Yaml.Word

/-!
# Tokens that no property waits before

An anchor or a tag is written without blanks after its mark. So where the text before a
token shows no such word, the token that stands there has no anchor and no tag of its own.
-/

set_option autoImplicit false

namespace VersionDrift.Yaml

def Unspaced {α : Type} (t : Text) (f : Except Error (α × Cursor)) : Prop :=
  ∀ a c, f = .ok (a, c) → ∃ w, t = w ++ c.rest ∧ ∀ d ∈ w, isBlank d = false

namespace Unspaced

variable {α β : Type} {t : Text} {f g : Except Error (α × Cursor)}

theorem ok {a : α} {c : Cursor} (h : c.rest = t) : Unspaced t (.ok (a, c)) := by
  intro b d hd
  cases hd
  exact ⟨[], h.symm, by simp⟩

theorem error {e : Error} : Unspaced t (.error e : Except Error (α × Cursor)) := by
  intro a c h
  cases h

theorem ite {p : Prop} [Decidable p] (hf : p → Unspaced t f) (hg : ¬ p → Unspaced t g) :
    Unspaced t (if p then f else g) := by
  split
  · next h => exact hf h
  · next h => exact hg h

theorem cons {c : Char} (hc : isBlank c = false) (hf : Unspaced t f) : Unspaced (c :: t) f := by
  intro a d hd
  obtain ⟨w, rfl, hw⟩ := hf a d hd
  exact ⟨c :: w, rfl, List.forall_mem_cons.mpr ⟨hc, hw⟩⟩

theorem bind {g : α × Cursor → Except Error (β × Cursor)} (hf : Unspaced t f)
    (hg : ∀ a c, Unspaced c.rest (g (a, c))) : Unspaced t (f >>= g) := by
  intro b d h
  obtain ⟨⟨a, c⟩, hc, hd⟩ := bind_eq_ok h
  obtain ⟨w, rfl, hw⟩ := hf a c hc
  obtain ⟨u, hu, hu'⟩ := hg a c b d hd
  refine ⟨w ++ u, by rw [hu, List.append_assoc], fun e he => ?_⟩
  exact (List.mem_append.mp he).elim (hw e) (hu' e)

theorem skip {a : α} {c : Cursor} {d : Char} (hc : c.rest.head? = some d)
    (hd : isBlank d = false) : Unspaced c.rest (.ok (a, c.skip 1)) := by
  cases hrest : c.rest with
  | nil =>
    rw [hrest] at hc
    cases hc
  | cons e t =>
    rw [hrest] at hc
    obtain rfl := Option.some.inj hc
    exact (ok (by simp [hrest])).cons hd

end Unspaced

namespace Property

theorem isBlank_of_isUri (verbatim : Bool) {c : Char} (h : isUri verbatim c = true) :
    isBlank c = false := by
  simp only [isBlank, Bool.or_eq_false_iff, decide_eq_false_iff_not]
  constructor
  · rintro rfl
    cases verbatim <;> simp [isUri, isWord] at h
  · rintro rfl
    cases verbatim <;> simp [isUri, isWord] at h

theorem isBlank_of_isWord {c : Char} (h : isWord c = true) : isBlank c = false :=
  isBlank_of_isUri false (by simp [isUri, h])

theorem unspaced_taken {p : Char → Bool} (hp : ∀ c, p c = true → isBlank c = false) (c : Cursor) :
    Unspaced c.rest (taken p c) := by
  intro a d hd
  cases hd
  refine ⟨c.rest.takeWhile p, ?_, fun e he => hp e (List.all_eq_true.mp List.all_takeWhile e he)⟩
  exact (List.prefix_iff_eq_append.mp (List.takeWhile_prefix p)).symm

theorem unspaced_anchorName {c : Cursor} {d : Char} {t : Text} (hc : c.rest = d :: t) :
    Unspaced t (anchorName c) := by
  have hskip : (c.skip 1).rest = t := by simp [hc]
  have htaken := unspaced_taken (fun _ => isBlank_of_isWord) (c.skip 1)
  rw [hskip] at htaken
  exact .bind htaken fun name d => .ite (fun _ => .ok rfl) fun _ => .error

theorem unspaced_uriFrom (verbatim : Bool) (line : Nat) (t : Text) (column : Nat) (acc : Text)
    (escape : Escape) : Unspaced t (uriFrom verbatim line t column acc escape) := by
  fun_induction uriFrom
  case case5 c t column acc huri _ ih =>
    exact .cons (isBlank_of_isUri _ (by simpa using huri)) ih
  all_goals first
    | exact .error
    | exact .ok rfl
    | next ih => exact .cons rfl ih
    | next ih => exact .cons (Decimal.word_of_digit? ‹Decimal.digit? 16 _ = some _›).1 ih

theorem unspaced_uri (verbatim : Bool) (begun : Text) (c : Cursor) :
    Unspaced c.rest (uri verbatim begun c) :=
  .bind (unspaced_uriFrom _ _ _ _ _ _) fun _ _ => .ok rfl

theorem unspaced_handle {c : Cursor} {d : Char} {t : Text} (hc : c.rest = d :: t) :
    Unspaced t (handle c) := by
  have hskip : (c.skip 1).rest = t := by simp [hc]
  have htaken := unspaced_taken (fun _ => isBlank_of_isWord) (c.skip 1)
  rw [hskip] at htaken
  refine .ite (fun _ => .bind htaken fun word d => ?_) fun _ => .error
  exact .ite (fun hhead => .skip hhead rfl) fun _ => .ok rfl

theorem unspaced_tagBody {c : Cursor} {d : Char} {t : Text} (hc : c.rest = d :: t) :
    Unspaced t (tagBody c) := by
  refine .ite (fun hverbatim => ?_) fun _ => .bind (unspaced_handle hc) fun h e => .ite ?_ ?_
  · cases t with
    | nil => simp [hc] at hverbatim
    | cons e t =>
      obtain rfl : e = '<' := by simpa [hc] using hverbatim
      have hskip : (c.skip 2).rest = t := by simp [hc]
      have huri := unspaced_uri true [] (c.skip 2)
      rw [hskip] at huri
      refine .cons rfl (.bind huri fun suffix d => .ite (fun _ => .error) fun _ => ?_)
      exact .ite (fun hhead => .skip hhead rfl) fun _ => .error
  · exact fun _ => .bind (unspaced_uri false [] e) fun _ _ =>
      .ite (fun _ => .error) fun _ => .ok rfl
  · exact fun _ => .bind (unspaced_uri false h.tail e) fun _ _ => .ok rfl

theorem unspaced_tag (inFlow : Bool) {c : Cursor} {d : Char} {t : Text} (hc : c.rest = d :: t) :
    Unspaced t (tag inFlow c) :=
  .bind (unspaced_tagBody hc) fun _ _ => .ite (fun _ => .ok rfl) fun _ => .error

end Property

theorem Token.isProperty_of_isMark {u : Token} (h : u.isMark = true) : u.isProperty = false := by
  cases u <;> first
    | rfl
    | cases h

namespace Layout

variable {s r : Layout}

/-- No anchor and no tag waits for its node. -/
def Bare (s : Layout) : Prop := ∀ t ∈ s.emitted.head?, t.isProperty = false

theorem Bare.noteCandidate (h : s.Bare) (hr : s.noteCandidate = .ok r) : r.Bare := by
  obtain ⟨k, rfl⟩ := noteCandidate_eq_ok hr
  exact h

theorem Bare.withCursor (h : s.Bare) (c : Cursor) : (s.withCursor c).Bare := h

theorem Bare.dropStale (h : s.Bare) (hr : s.dropStale = .ok r) : r.Bare := by
  obtain ⟨k, ks, rfl⟩ := dropStale_eq_ok hr
  exact h

theorem Bare.closeTo (h : s.Bare) (column : Nat) : (s.closeTo column).Bare := by
  unfold Layout.closeTo
  split
  · exact h
  · intro t ht
    dsimp only at ht
    cases hn : (closedAt column s.columns).2 with
    | zero =>
      rw [hn] at ht
      exact h t ht
    | succ n =>
      rw [hn] at ht
      obtain rfl := Option.some.inj ht
      rfl

/-- A step ends before a token of its own, or it has taken a word that begins with the mark of an
anchor or a tag. -/
theorem Steps.bare (h : s.Steps r) : r.Bare ∨ ∃ m w, (m = '&' ∨ m = '!') ∧
    s.cursor.rest = m :: w ++ r.cursor.rest ∧ ∀ d ∈ w, isBlank d = false := by
  have hbare {q : Layout} {u : Token} {c : Cursor} (hu : u.isProperty = false) :
      ((q.emit u).withCursor c).Bare := by
    intro t ht
    obtain rfl := Option.some.inj ht
    exact hu
  cases h with
  | mark settles mark => exact .inl (hbare (Token.isProperty_of_isMark mark))
  | read settles spells =>
    cases spells with
    | directive read =>
      rcases Property.token_of_directive read with ⟨_, _, rfl⟩ | ⟨_, _, rfl⟩
      · exact .inl (hbare rfl)
      · exact .inl (hbare rfl)
    | anchor begins read =>
      obtain ⟨t, ht⟩ := List.head?_eq_some_iff.mp begins
      obtain ⟨w, rfl, hw⟩ := Property.unspaced_anchorName ht _ _ read
      exact .inr ⟨'&', w, .inl rfl, ht, hw⟩
    | tag begins read =>
      obtain ⟨t, ht⟩ := List.head?_eq_some_iff.mp begins
      obtain ⟨w, rfl, hw⟩ := Property.unspaced_tag _ ht _ _ read
      exact .inr ⟨'!', w, .inr rfl, ht, hw⟩
    | «alias» => exact .inl (hbare rfl)
    | block => exact .inl (hbare rfl)
    | quoted => exact .inl (hbare rfl)
    | plain => exact .inl (hbare rfl)

theorem Reads.bare {t : Text} (h : Reads t s) :
    s.Bare ∨ ∃ x m w, (m = '&' ∨ m = '!') ∧ t = x ++ (m :: w ++ s.cursor.rest) ∧
      ∀ d ∈ w, isBlank d = false := by
  cases h with
  | start => exact .inl fun t ht => by cases ht
  | @next s₀ _ reads step =>
    rcases (steps_of_next step).2.bare with hbare | ⟨m, w, hm, heq, hw⟩
    · exact .inl hbare
    · have hskip : s₀.skipped.cursor.rest <:+ s₀.cursor.rest := suffix_skipSpace ..
      obtain ⟨x, hx⟩ := hskip.trans reads.suffix
      exact .inr ⟨x, m, w, hm, by rw [← hx, heq], hw⟩

/-- No property waits for a token that stands on a line after a blank and text without these
marks. -/
theorem Reads.bare_of_unmarked {x y : Text} (h : Reads (x ++ ' ' :: y ++ s.cursor.rest) s)
    (hy : ∀ c ∈ y, c ≠ '&' ∧ c ≠ '!') : s.Bare := by
  rcases h.bare with hbare | ⟨z, m, w, hm, heq, hw⟩
  · exact hbare
  have hmark (hmem : m ∈ y) : False := hm.elim (hy m hmem).1 (hy m hmem).2
  have hblank (hmem : ' ' ∈ m :: w) : False := by
    rcases List.mem_cons.mp hmem with rfl | hmem
    · rcases hm with hm | hm <;> cases hm
    · cases hw ' ' hmem
  rw [← List.append_assoc] at heq
  rcases List.append_eq_append_iff.mp (List.append_cancel_right heq) with
    ⟨u, -, hu⟩ | ⟨u, -, hu⟩
  · cases u with
    | nil =>
      exact (hblank (by rw [← List.nil_append (m :: w), ← hu]; exact List.mem_cons_self)).elim
    | cons c u =>
      refine (hmark ?_).elim
      rw [(List.cons.inj hu).2]
      exact List.mem_append_right _ List.mem_cons_self
  · exact (hblank (by rw [hu]; exact List.mem_append_right _ List.mem_cons_self)).elim

end Layout
end VersionDrift.Yaml
