import VersionDrift.Manifest.Scalar
import VersionDrift.Proofs.Except

/-!
# Tokens and their values

A token of a line spells its value in its style: bare, in single quotes with every
quote doubled, or in double quotes without quotes and backslashes inside. Scanning a
line splits it into blanks, a token and what may follow one.
-/

set_option autoImplicit false

namespace VersionDrift

namespace Text

theorem drop_length_takeWhile (p : Char → Bool) (t : Text) :
    t.drop (t.takeWhile p).length = t.dropWhile p := by
  calc t.drop (t.takeWhile p).length
      = (t.takeWhile p ++ t.dropWhile p).drop (t.takeWhile p).length := by
        rw [List.takeWhile_append_dropWhile]
    _ = t.dropWhile p := List.drop_left

theorem head_dropWhile {p : Char → Bool} {t r : Text} {c : Char} (h : t.dropWhile p = c :: r) :
    p c = false := by
  have := List.head?_dropWhile_not p t
  rw [h] at this
  simpa using this

theorem of_mem_head?_dropWhile {p : Char → Bool} {t : Text} {c : Char}
    (h : c ∈ (t.dropWhile p).head?) : p c = false := by
  obtain ⟨r, hr⟩ := List.head?_eq_some_iff.mp h
  exact head_dropWhile hr

theorem dropWhile_ne_eq_cons {c close : Char} {t r : Text}
    (h : t.dropWhile (· ≠ c) = close :: r) : close = c ∧ t = t.takeWhile (· ≠ c) ++ c :: r := by
  obtain rfl : close = c := by simpa using head_dropWhile h
  exact ⟨rfl, by rw [← h, List.takeWhile_append_dropWhile]⟩

theorem dropEndWhile_append (p : Char → Bool) (t : Text) :
    ∃ s, t = dropEndWhile p t ++ s ∧ ∀ c ∈ s, p c = true := by
  induction t with
  | nil => exact ⟨[], rfl, by simp⟩
  | cons c t ih =>
    obtain ⟨s, ht, hs⟩ := ih
    unfold dropEndWhile
    split
    · next hnil =>
      rw [hnil, List.nil_append] at ht
      subst ht
      split
      · next hc => exact ⟨c :: t, rfl, by simpa [hc] using hs⟩
      · exact ⟨t, rfl, hs⟩
    · exact ⟨s, by rw [List.cons_append, ← ht], hs⟩

theorem last_dropEndWhile (p : Char → Bool) (t : Text) :
    ∀ c ∈ (dropEndWhile p t).getLast?, p c = false := by
  induction t with
  | nil => simp [dropEndWhile]
  | cons c t ih =>
    unfold dropEndWhile
    split
    · split
      · simp
      · next hc => simpa using hc
    · next hne =>
      intro d hd
      cases hr : dropEndWhile p t with
      | nil => exact absurd hr hne
      | cons e r =>
        rw [hr, List.getLast?_cons_cons] at hd
        exact ih d (by rw [hr]; exact hd)

theorem dropEndWhile_cons {p : Char → Bool} {c : Char} (hc : p c = false) (t : Text) :
    ∃ r, dropEndWhile p (c :: t) = c :: r := by
  unfold dropEndWhile
  split
  · exact ⟨[], by simp [hc]⟩
  · exact ⟨_, rfl⟩

theorem dropEndWhile_append_of_all {p : Char → Bool} {s : Text} (hs : ∀ c ∈ s, p c = true)
    (t : Text) : dropEndWhile p (t ++ s) = dropEndWhile p t := by
  induction t with
  | nil =>
    rw [List.nil_append, dropEndWhile]
    induction s with
    | nil => rfl
    | cons c s ih =>
      rw [dropEndWhile, ih fun d hd => hs d (List.mem_cons_of_mem c hd)]
      exact if_pos (hs c List.mem_cons_self)
  | cons c t ih => simp only [List.cons_append, dropEndWhile, ih]

theorem dropEndWhile_of_last {p : Char → Bool} {t : Text} (ht : ∀ c ∈ t.getLast?, p c = false) :
    dropEndWhile p t = t := by
  induction t with
  | nil => rfl
  | cons c t ih =>
    cases t with
    | nil => exact if_neg (by simp [ht c rfl])
    | cons d t =>
      rw [dropEndWhile, ih fun e he => ht e (by rwa [List.getLast?_cons_cons])]

theorem takeWhile_append_cons {p : Char → Bool} {w : Text} {c : Char} (hw : ∀ d ∈ w, p d = true)
    (hc : p c = false) (t : Text) : (w ++ c :: t).takeWhile p = w := by
  rw [List.takeWhile_append_of_pos hw, List.takeWhile_cons_of_neg (by simp [hc]), List.append_nil]

theorem dropWhile_append_cons {p : Char → Bool} {w : Text} {c : Char} (hw : ∀ d ∈ w, p d = true)
    (hc : p c = false) (t : Text) : (w ++ c :: t).dropWhile p = c :: t := by
  rw [List.dropWhile_append_of_pos hw, List.dropWhile_cons_of_neg (by simp [hc])]

end Text

namespace Scalar

theorem untilQuote_eq_some {t inner after : Text} (h : untilQuote t = some (inner, after)) :
    t = inner ++ '\'' :: after ∧
      Text.replaceChar '\'' ['\'', '\''] (unquoted inner) = inner ∧ after.head? ≠ some '\'' := by
  fun_induction untilQuote t generalizing inner with
  | case1 => cases h
  | case2 t ih =>
    obtain ⟨⟨u, a⟩, hu, heq⟩ := Option.map_eq_some_iff.mp h
    obtain ⟨rfl, rfl⟩ := Prod.mk.inj heq
    obtain ⟨ht, hr, ha⟩ := ih hu
    exact ⟨by rw [ht]; rfl, by simp [unquoted, hr], ha⟩
  | case3 t hdouble =>
    obtain ⟨rfl, rfl⟩ := Prod.mk.inj (Option.some.inj h)
    refine ⟨rfl, rfl, ?_⟩
    cases t with
    | nil => simp
    | cons d t =>
      intro hd
      obtain rfl := Option.some.inj hd
      exact hdouble t rfl
  | case4 c t hdouble hquote ih =>
    obtain ⟨⟨u, a⟩, hu, heq⟩ := Option.map_eq_some_iff.mp h
    obtain ⟨rfl, rfl⟩ := Prod.mk.inj heq
    obtain ⟨ht, hr, ha⟩ := ih hu
    refine ⟨by rw [ht]; rfl, ?_, ha⟩
    have hc : c ≠ '\'' := fun hc => hquote hc
    rw [unquoted]
    · simp [hc, hr]
    · intro r hc'
      exact absurd hc' hc

theorem uncommented_append (t : Text) :
    ∃ s, t = uncommented t ++ s ∧ (s = [] ∨ ∃ c r, s = c :: '#' :: r ∧ Text.isGap c = true) := by
  induction t with
  | nil => exact ⟨[], rfl, .inl rfl⟩
  | cons c t ih =>
    unfold uncommented
    split
    · next h =>
      obtain ⟨hc, ht⟩ : Text.isGap c = true ∧ t.head? = some '#' := by simpa using h
      cases t with
      | nil => cases ht
      | cons d r =>
        obtain rfl := Option.some.inj ht
        exact ⟨_, rfl, .inr ⟨c, r, rfl, hc⟩⟩
    · obtain ⟨s, ht, hs⟩ := ih
      exact ⟨s, by rw [List.cons_append, ← ht], hs⟩

/-- Every number sign in the text follows another character than a blank. -/
def IsCommentFree (t : Text) : Prop := ∀ x c y, t = x ++ c :: '#' :: y → Text.isGap c = false

theorem IsCommentFree.of_append {s t : Text} (h : IsCommentFree (s ++ t)) :
    IsCommentFree s ∧ IsCommentFree t := by
  constructor
  · rintro x c y rfl
    exact h x c (y ++ t) (by simp)
  · rintro x c y rfl
    exact h (s ++ x) c y (by simp)

theorem isCommentFree_nil : IsCommentFree [] := by
  intro x c y h
  cases x <;> cases h

theorem isCommentFree_cons {c : Char} {t : Text} :
    IsCommentFree (c :: t) ↔ (t.head? = some '#' → Text.isGap c = false) ∧ IsCommentFree t := by
  constructor
  · intro h
    refine ⟨fun hhead => ?_, fun x d y ht => h (c :: x) d y (by rw [ht]; rfl)⟩
    cases t with
    | nil => cases hhead
    | cons d t =>
      obtain rfl := Option.some.inj hhead
      exact h [] c t rfl
  · rintro ⟨hhead, ht⟩ x d y h
    cases x with
    | nil =>
      obtain ⟨rfl, rfl⟩ := List.cons.inj h
      exact hhead rfl
    | cons e x => exact ht x d y (List.cons.inj h).2

theorem IsCommentFree.blanks_append {cs t : Text} {c : Char} (h : IsCommentFree t)
    (hcs : ∀ d ∈ cs, Text.isGap d = true) (hc : Text.isGap c = false) (hsharp : c = '#' → cs = []) :
    IsCommentFree (cs ++ c :: t) := by
  induction cs with
  | nil => exact isCommentFree_cons.mpr ⟨fun _ => hc, h⟩
  | cons d cs ih =>
    have hne : c ≠ '#' := fun heq => absurd (hsharp heq) (by simp)
    have hrest : ∀ e ∈ cs, Text.isGap e = true := fun e he => hcs e (List.mem_cons_of_mem _ he)
    refine isCommentFree_cons.mpr ⟨fun hhead => ?_, ih hrest fun heq => absurd heq hne⟩
    cases cs with
    | nil => exact absurd (Option.some.inj hhead) hne
    | cons e cs =>
      obtain rfl := Option.some.inj hhead
      cases hrest '#' List.mem_cons_self

theorem IsCommentFree.ne_sharp {cs t : Text} {c : Char} (h : IsCommentFree (cs ++ c :: t))
    (hcs : ∀ d ∈ cs, Text.isGap d = true) (hne : cs ≠ []) : c ≠ '#' := by
  rintro rfl
  obtain ⟨d, hd⟩ := Option.ne_none_iff_exists'.mp (mt List.getLast?_eq_none_iff.mp hne)
  obtain ⟨x, rfl⟩ := List.getLast?_eq_some_iff.mp hd
  have hgap := hcs d (by simp)
  rw [h x d t (by simp)] at hgap
  cases hgap

theorem isCommentFree_uncommented (t : Text) : IsCommentFree (uncommented t) := by
  induction t with
  | nil => exact isCommentFree_nil
  | cons c t ih =>
    unfold uncommented
    split
    · exact isCommentFree_nil
    · next hcut =>
      refine isCommentFree_cons.mpr ⟨fun hrest => ?_, ih⟩
      have hhead : t.head? = some '#' := by
        obtain ⟨s, hs, -⟩ := uncommented_append t
        rw [hs, List.head?_append, hrest]
        rfl
      simpa [hhead] using hcut

def beginsNoValue (c : Char) : Bool :=
  c ∈ ['#', '|', '>', '&', '*', '!', '{', '[', '"', '\''] || Text.isGap c

end Scalar

/-- The token spells the value in the style. -/
inductive Style.Spells : Style → Text → Text → Prop
  | plain {c : Char} {t : Text} (begins : Scalar.beginsNoValue c = false)
      (ends : ∀ d ∈ (c :: t).getLast?, Text.isGap d = false) : Spells .plain (c :: t) (c :: t)
  | single (value : Text) : Spells .single (Style.singleQuoted value) value
  | double {value : Text} (quote : '"' ∉ value) (escape : '\\' ∉ value) :
      Spells .double ('"' :: value ++ ['"']) value

theorem Style.Spells.eq_cons {style : Style} {token value : Text} (h : style.Spells token value) :
    ∃ c t, token = c :: t ∧ Text.isGap c = false ∧ c ≠ '#' := by
  cases h with
  | @plain c t begins =>
    simp only [Scalar.beginsNoValue, Bool.or_eq_false_iff, decide_eq_false_iff_not, List.mem_cons,
      not_or] at begins
    exact ⟨c, t, rfl, begins.2, begins.1.1⟩
  | single => exact ⟨'\'', _, rfl, rfl, by decide⟩
  | double => exact ⟨'"', _, rfl, rfl, by decide⟩

/-- What may stand right after a token, so that the token does not go on with it. -/
def Style.MayPrecede : Style → Text → Prop
  | plain, after => after.head? ≠ some '#'
  | single, after => after.head? ≠ some '\''
  | double, _ => True

namespace Scalar

theorem spells_plain {c : Char} {t : Text} (hc : beginsNoValue c = false) :
    Style.plain.Spells (Text.dropEndWhile Text.isGap (uncommented (c :: t)))
        (Text.dropEndWhile Text.isGap (uncommented (c :: t))) ∧
      IsCommentFree (Text.dropEndWhile Text.isGap (uncommented (c :: t))) ∧
      ∃ u, c :: t = Text.dropEndWhile Text.isGap (uncommented (c :: t)) ++ u ∧
        u.head? ≠ some '#' := by
  have hgap : Text.isGap c = false := by
    rw [beginsNoValue, Bool.or_eq_false_iff] at hc
    exact hc.2
  obtain ⟨s, hs, hcomment⟩ := uncommented_append (c :: t)
  obtain ⟨u, hu, hblank⟩ := Text.dropEndWhile_append Text.isGap (uncommented (c :: t))
  have hhead : (u ++ s).head? ≠ some '#' := by
    cases u with
    | nil =>
      rcases hcomment with rfl | ⟨d, r, rfl, hd⟩
      · simp
      · rintro h
        obtain rfl := Option.some.inj h
        cases hd
    | cons d u =>
      rintro h
      obtain rfl := Option.some.inj h
      cases hblank '#' List.mem_cons_self
  have hcut : uncommented (c :: t) = c :: uncommented t := by simp [uncommented, hgap]
  obtain ⟨r, hr⟩ := Text.dropEndWhile_cons hgap (uncommented t)
  have hends := Text.last_dropEndWhile Text.isGap (c :: uncommented t)
  have htext : c :: t = (c :: r) ++ (u ++ s) := by
    rw [hs, hu, hcut, hr, List.append_assoc]
  have hfree := isCommentFree_uncommented (c :: t)
  rw [hu] at hfree
  rw [hcut, hr] at hfree ⊢
  rw [hr] at hends
  exact ⟨.plain hc hends, hfree.of_append.1, u ++ s, htext, hhead⟩

theorem spells_double {close : Char} {t r : Text}
    (hdrop : t.dropWhile (· ≠ '"') = close :: r) (hescape : '\\' ∉ t.takeWhile (· ≠ '"')) :
    Style.double.Spells ('"' :: t.takeWhile (· ≠ '"') ++ [close]) (t.takeWhile (· ≠ '"')) ∧
      t = t.takeWhile (· ≠ '"') ++ close :: r := by
  obtain ⟨rfl, ht⟩ := Text.dropWhile_ne_eq_cons hdrop
  have hquote : '"' ∉ t.takeWhile (· ≠ '"') := by
    intro hmem
    simpa using List.all_eq_true.mp List.all_takeWhile _ hmem
  exact ⟨.double hquote hescape, ht⟩

theorem spells_single {t inner after : Text} (h : untilQuote t = some (inner, after)) :
    Style.single.Spells ('\'' :: inner ++ ['\'']) (unquoted inner) ∧
      t = inner ++ '\'' :: after ∧ after.head? ≠ some '\'' := by
  obtain ⟨ht, hdoubled, hafter⟩ := untilQuote_eq_some h
  have hspells := Style.Spells.single (unquoted inner)
  rw [Style.singleQuoted, hdoubled] at hspells
  exact ⟨hspells, ht, hafter⟩

theorem scanToken_eq_ok {t token value after : Text} {style : Style}
    (hgap : ∀ c ∈ t.head?, Text.isGap c = false)
    (h : scanToken t = .ok (token, style, value, after)) :
    t = token ++ after ∧ style.Spells token value ∧ style.MayPrecede after ∧
      (style = .plain → IsCommentFree token) := by
  cases t with
  | nil => cases h
  | cons c t =>
    simp only [scanToken] at h
    split at h
    · cases h
    next hcomment =>
    split at h
    · cases h
    next hblock =>
    split at h
    · cases h
    next hanchor =>
    split at h
    · cases h
    next htag =>
    split at h
    · cases h
    next hflow =>
    split at h
    · next hquote =>
      split at h
      · cases h
      · next close r hdrop =>
        rw [Text.drop_length_takeWhile] at hdrop
        split at h
        · cases h
        · next hescape =>
          simp only [Except.ok.injEq, Prod.mk.injEq] at h
          obtain ⟨rfl, rfl, rfl, rfl⟩ := h
          obtain ⟨hspells, ht⟩ := spells_double hdrop hescape
          refine ⟨?_, hspells, trivial, nofun⟩
          rw [hquote]
          simpa using ht
    next hdouble =>
    split at h
    · next hquote =>
      split at h
      · cases h
      · next inner rest huntil =>
        simp only [Except.ok.injEq, Prod.mk.injEq] at h
        obtain ⟨rfl, rfl, rfl, rfl⟩ := h
        obtain ⟨hspells, ht, hrest⟩ := spells_single huntil
        refine ⟨?_, hspells, hrest, nofun⟩
        rw [hquote, ht]
        simp
    · next hsingle =>
      simp only [Except.ok.injEq, Prod.mk.injEq] at h
      obtain ⟨rfl, rfl, rfl, rfl⟩ := h
      have hc : beginsNoValue c = false := by
        have hc : Text.isGap c = false := hgap c rfl
        simp only [Bool.or_eq_true, decide_eq_true_eq, not_or] at hblock hanchor hflow
        simp [beginsNoValue, hcomment, hblock, hanchor, htag, hflow, hdouble, hsingle, hc]
      obtain ⟨hspells, hfree, u, hu, hhead⟩ := spells_plain (t := t) hc
      generalize Text.dropEndWhile Text.isGap (uncommented (c :: t)) = token at hu hspells hfree
      rw [hu, List.drop_left]
      exact ⟨rfl, hspells, hhead, fun _ => hfree⟩

/-- A line's rest is cut into blanks, a token that spells its value, and what may follow one; no
comment begins in a bare token. -/
theorem scan_eq_ok {t : Text} {s : Scalar} (h : scan t = .ok s) :
    t = s.gap ++ s.token ++ s.after ∧ (∀ c ∈ s.gap, Text.isGap c = true) ∧
      s.style.Spells s.token s.value ∧ isNoise s.after = true ∧ s.style.MayPrecede s.after ∧
      (s.style = .plain → IsCommentFree s.token) := by
  cases htoken : scanToken (t.dropWhile Text.isGap) with
  | error form => simp [scan, htoken] at h
  | ok r =>
    obtain ⟨token, style, value, after⟩ := r
    simp only [scan, htoken, ok_bind] at h
    split at h
    · next hnoise =>
      obtain rfl := Except.ok.inj h
      have hgap : ∀ c ∈ (t.dropWhile Text.isGap).head?, Text.isGap c = false :=
        fun c hc => Text.of_mem_head?_dropWhile hc
      obtain ⟨hcut, hspells, hafter⟩ := scanToken_eq_ok hgap htoken
      refine ⟨?_, fun c hc => ?_, hspells, hnoise, hafter⟩
      · rw [List.append_assoc, ← hcut, List.takeWhile_append_dropWhile]
      · exact List.all_eq_true.mp List.all_takeWhile c hc
    · cases h

theorem uncommented_append_of_free {w t : Text} (hw : IsCommentFree w) (ht : t.head? ≠ some '#') :
    uncommented (w ++ t) = w ++ uncommented t := by
  induction w with
  | nil => rfl
  | cons c w ih =>
    obtain ⟨hhead, hrest⟩ := isCommentFree_cons.mp hw
    rw [List.cons_append, uncommented, ih hrest, if_neg]
    · rfl
    · rw [Bool.and_eq_true, decide_eq_true_eq]
      rintro ⟨hc, hsharp⟩
      cases w with
      | nil => exact ht hsharp
      | cons d w =>
        rw [hhead hsharp] at hc
        cases hc

theorem isGap_of_mem_uncommented {t : Text} (hnoise : isNoise t = true)
    (hhead : t.head? ≠ some '#') : ∀ c ∈ uncommented t, Text.isGap c = true := by
  induction t with
  | nil => simp [uncommented]
  | cons c t ih =>
    have hc : Text.isGap c = true := by
      refine Decidable.byContradiction fun hc => ?_
      rw [isNoise, List.dropWhile_cons_of_neg hc] at hnoise
      exact hhead (congrArg some (of_decide_eq_true hnoise))
    have hrest : isNoise t = true := by
      rwa [isNoise, List.dropWhile_cons_of_pos hc] at hnoise
    rw [uncommented, hc, Bool.true_and]
    split
    · simp
    · next hcomment =>
      intro d hd
      rcases List.mem_cons.mp hd with rfl | hd
      · exact hc
      · exact ih hrest (by simpa using hcomment) d hd

theorem untilQuote_doubled {w after : Text} (hafter : after.head? ≠ some '\'') :
    untilQuote (Text.replaceChar '\'' ['\'', '\''] w ++ '\'' :: after) =
      some (Text.replaceChar '\'' ['\'', '\''] w, after) := by
  induction w with
  | nil =>
    cases after with
    | nil => rfl
    | cons c after =>
      have hc : c ≠ '\'' := fun hc => hafter (congrArg some hc)
      rw [Text.replaceChar, List.nil_append, untilQuote]
      exact fun _ h => hc (List.cons.inj h).1
  | cons c w ih =>
    rw [Text.replaceChar]
    split
    · simp [untilQuote, ih]
    · next hc =>
      rw [List.cons_append, untilQuote, ih]
      · rfl
      · exact fun _ h _ => hc h
      · exact hc

theorem unquoted_doubled (w : Text) : unquoted (Text.replaceChar '\'' ['\'', '\''] w) = w := by
  induction w with
  | nil => rfl
  | cons c w ih =>
    rw [Text.replaceChar]
    split
    · next hc => simp [unquoted, ih, hc]
    · next hc =>
      rw [unquoted, ih]
      exact fun _ h _ => hc h

theorem scanToken_of_beginsNoValue {c : Char} (hc : beginsNoValue c = false) (t : Text) :
    scanToken (c :: t) =
      let value := Text.dropEndWhile Text.isGap (uncommented (c :: t))
      .ok (value, .plain, value, (c :: t).drop value.length) := by
  simp only [beginsNoValue, Bool.or_eq_false_iff, decide_eq_false_iff_not, List.mem_cons,
    List.not_mem_nil, or_false, not_or] at hc
  obtain ⟨⟨h₁, h₂, h₃, h₄, h₅, h₆, h₇, h₈, h₉, h₁₀⟩, -⟩ := hc
  simp [scanToken, h₁, h₂, h₃, h₄, h₅, h₆, h₇, h₈, h₉, h₁₀]

theorem scanToken_of_spells {style : Style} {token value after : Text}
    (h : style.Spells token value) (hnoise : isNoise after = true)
    (hafter : style.MayPrecede after) (hfree : style = .plain → IsCommentFree token) :
    scanToken (token ++ after) = .ok (token, style, value, after) := by
  cases h with
  | @plain c t begins ends =>
    have hvalue : Text.dropEndWhile Text.isGap (uncommented (c :: t ++ after)) = c :: t := by
      rw [uncommented_append_of_free (hfree rfl) hafter,
        Text.dropEndWhile_append_of_all (isGap_of_mem_uncommented hnoise hafter),
        Text.dropEndWhile_of_last ends]
    rw [List.cons_append, scanToken_of_beginsNoValue begins, ← List.cons_append, hvalue]
    simp
  | single =>
    have huntil := untilQuote_doubled (w := value) hafter
    simp [scanToken, Style.singleQuoted, huntil, unquoted_doubled]
  | double hquote hescape =>
    have hquote (c : Char) (hc : c ∈ value) : (!decide (c = '"')) = true := by
      refine Bool.not_eq_true' _ |>.mpr (decide_eq_false ?_)
      rintro rfl
      exact hquote hc
    have htake : (value ++ '"' :: after).takeWhile (fun c => !decide (c = '"')) = value :=
      Text.takeWhile_append_cons hquote (by decide) after
    simp [scanToken, htake, hescape]

/-- Blanks, a token and what may follow one are scanned as such. -/
theorem scan_of_spells {style : Style} {gap token value after : Text}
    (hgap : ∀ c ∈ gap, Text.isGap c = true) (h : style.Spells token value)
    (hnoise : isNoise after = true) (hafter : style.MayPrecede after)
    (hfree : style = .plain → IsCommentFree token) :
    scan (gap ++ (token ++ after)) = .ok ⟨gap, token, after, style, value⟩ := by
  have htoken := scanToken_of_spells h hnoise hafter hfree
  obtain ⟨c, t, rfl, hc, -⟩ := h.eq_cons
  rw [List.cons_append] at htoken ⊢
  simp only [scan, Text.takeWhile_append_cons hgap hc, Text.dropWhile_append_cons hgap hc, htoken,
    ok_bind, hnoise, if_true]
  rfl

end Scalar
end VersionDrift
