import VersionDrift.Text.Blank
import VersionDrift.Yaml.Character

/-!
# Unified line breaks

Before a text is read its line breaks are unified. That leaves the characters of a line as
they are, so a text can be cut anywhere but within a line break of two characters.
-/

set_option autoImplicit false

namespace VersionDrift.Yaml

def breaksLine (c : Char) : Bool := isBreak c || c = '\r' || c = '\x85'

theorem isBreak_of_breaksLine {c : Char} (h : breaksLine c = false) : isBreak c = false := by
  simp only [breaksLine, Bool.or_eq_false_iff] at h
  exact h.1.1

/-- Texts can be cut where no line feed follows a carriage return. -/
theorem unifyBreaksFrom_append (b : Bool) (t : Text) {u : Text} (hu : u.head? ≠ some '\n') :
    unifyBreaksFrom b (t ++ u) = unifyBreaksFrom b t ++ unifyBreaks u := by
  induction t generalizing b with
  | nil =>
    cases u with
    | nil => rfl
    | cons c u =>
      have hc : c ≠ '\n' := fun h => hu (by rw [h]; rfl)
      simp [unifyBreaks, unifyBreaksFrom, hc]
  | cons c t ih =>
    simp only [List.cons_append, unifyBreaksFrom, ih]
    split
    · rfl
    · split
      · rfl
      · split <;> rfl

theorem unifyBreaks_append {t : Text} (ht : ∀ c ∈ t, breaksLine c = false) (u : Text) :
    unifyBreaks (t ++ u) = t ++ unifyBreaks u := by
  induction t with
  | nil => rfl
  | cons c t ih =>
    have hc := ht c List.mem_cons_self
    simp only [breaksLine, isBreak, Bool.or_eq_false_iff, decide_eq_false_iff_not] at hc
    have hrest := ih fun d hd => ht d (List.mem_cons_of_mem _ hd)
    unfold unifyBreaks at hrest ⊢
    simp [unifyBreaksFrom, hc, hrest]

theorem unifyBreaks_append_blank (x y : Text) :
    unifyBreaks (x ++ ' ' :: y) = unifyBreaks x ++ ' ' :: unifyBreaks y := by
  unfold unifyBreaks
  rw [unifyBreaksFrom_append false x (by simp)]
  rfl

theorem breaksLine_of_isGap {c : Char} (h : Text.isGap c = true) : breaksLine c = false := by
  simp only [Text.isGap, Bool.or_eq_true, decide_eq_true_eq] at h
  rcases h with rfl | rfl <;> rfl

theorem unifyBreaks_around (stem : Text) {gap w : Text} (hgap : ∀ c ∈ gap, Text.isGap c = true)
    (hne : gap ≠ []) (hw : ∀ c ∈ w, breaksLine c = false) (u : Text) :
    unifyBreaks (stem ++ gap ++ w ++ u) = (unifyBreaks stem ++ gap) ++ (w ++ unifyBreaks u) := by
  have hhead : (gap ++ (w ++ u)).head? ≠ some '\n' := by
    cases gap with
    | nil => exact absurd rfl hne
    | cons c gap =>
      intro hc
      obtain rfl := Option.some.inj hc
      cases hgap '\n' List.mem_cons_self
  have hline (c : Char) (hc : c ∈ gap) : breaksLine c = false := breaksLine_of_isGap (hgap c hc)
  calc unifyBreaks (stem ++ gap ++ w ++ u)
      = unifyBreaks (stem ++ (gap ++ (w ++ u))) := by simp only [List.append_assoc]
    _ = unifyBreaks stem ++ unifyBreaks (gap ++ (w ++ u)) :=
        unifyBreaksFrom_append false stem hhead
    _ = unifyBreaks stem ++ (gap ++ (w ++ unifyBreaks u)) := by
        rw [unifyBreaks_append hline, unifyBreaks_append hw]
    _ = (unifyBreaks stem ++ gap) ++ (w ++ unifyBreaks u) := (List.append_assoc ..).symm

theorem mem_unifyBreaks {t : Text} {c : Char} (h : c ∈ unifyBreaks t) : c = '\n' ∨ c ∈ t := by
  have hfrom (b : Bool) (hc : c ∈ unifyBreaksFrom b t) : c = '\n' ∨ c ∈ t := by
    clear h
    induction t generalizing b with
    | nil => cases hc
    | cons d t ih =>
      unfold unifyBreaksFrom at hc
      grind
  exact hfrom false h

theorem prefix_of_unifyBreaks {t w : Text} (hw : '\n' ∉ w) (h : w <+: unifyBreaks t) : w <+: t := by
  induction t generalizing w with
  | nil => exact h
  | cons c t ih =>
    cases w with
    | nil => exact List.nil_prefix
    | cons d w =>
      simp only [List.mem_cons, not_or] at hw
      simp only [unifyBreaks, unifyBreaksFrom, Bool.and_false, Bool.false_eq_true, if_false] at h
      split at h
      · exact absurd (List.cons_prefix_cons.mp h).1.symm hw.1
      split at h
      · exact absurd (List.cons_prefix_cons.mp h).1.symm hw.1
      · obtain ⟨hd, hprefix⟩ := List.cons_prefix_cons.mp h
        exact List.cons_prefix_cons.mpr ⟨hd, ih hw.2 hprefix⟩

theorem infix_of_unifyBreaks {t w : Text} (b : Bool) (hw : '\n' ∉ w)
    (h : w <:+: unifyBreaksFrom b t) : w <:+: t := by
  induction t generalizing b with
  | nil => exact h
  | cons c t ih =>
    have hrest (b : Bool) (h : w <:+: unifyBreaksFrom b t) : w <:+: c :: t :=
      (ih b h).trans (List.suffix_cons c t).isInfix
    have hbroken (b : Bool) (h : w <:+: '\n' :: unifyBreaksFrom b t) : w <:+: c :: t := by
      rcases List.infix_cons_iff.mp h with hprefix | h
      · rcases List.prefix_cons_iff.mp hprefix with rfl | ⟨u, rfl, -⟩
        · exact List.nil_infix
        · exact absurd List.mem_cons_self hw
      · exact hrest b h
    unfold unifyBreaksFrom at h
    split at h
    · exact hrest false h
    split at h
    · exact hbroken true h
    split at h
    · exact hbroken false h
    · rcases List.infix_cons_iff.mp h with hprefix | h
      · rcases List.prefix_cons_iff.mp hprefix with rfl | ⟨u, rfl, hu⟩
        · exact List.nil_infix
        · have hword : '\n' ∉ u := fun hmem => hw (List.mem_cons_of_mem _ hmem)
          exact (List.cons_prefix_cons.mpr ⟨rfl, prefix_of_unifyBreaks hword hu⟩).isInfix
      · exact hrest false h

end VersionDrift.Yaml
