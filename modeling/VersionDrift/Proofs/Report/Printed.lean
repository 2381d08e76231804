import Mathlib.Data.List.Forall2
import VersionDrift.Proofs.Diff.Rendered
import VersionDrift.Report.Lines

/-!
# Diffs as they are printed

Without colours a diff is printed line by line, and each line ends in a line feed: a
carriage return before it is lost, and one at the end of the diff gets a line feed
behind it. So the hunks that are printed are the hunks of the diff up to the ends of
their lines, and the printed diff applies exactly when it is the diff itself.
-/

set_option autoImplicit false

namespace VersionDrift

namespace Text

theorem dropLast?_cons {d : Char} {t : Text} (hne : t ≠ []) (c : Char) :
    dropLast? d (c :: t) = (dropLast? d t).map (c :: ·) := by
  cases t with
  | nil => exact absurd rfl hne
  | cons e t => rfl

theorem printedBody_cons {c : Char} {l : Text} (hne : l ≠ []) (hlast : c = '\r' → l ≠ ['\n']) :
    printedBody (c :: l) = c :: printedBody l := by
  unfold printedBody
  rw [dropLast?_cons hne]
  cases hfed : dropLast? '\n' l with
  | none => rfl
  | some unfed =>
    dsimp only [Option.map_some]
    cases unfed with
    | nil =>
      have hc : c ≠ '\r' := fun hc => hlast hc (dropLast?_eq_some hfed)
      simp [dropLast?, hc]
    | cons e unfed =>
      rw [dropLast?_cons (by simp)]
      cases dropLast? '\r' (e :: unfed) <;> rfl

theorem endedLines_cons {c : Char} (hc : c ≠ '\n') {t : Text} (hne : t ≠ []) :
    ∃ l ls, endedLines t = l :: ls ∧ endedLines (c :: t) = (c :: l) :: ls ∧ l.head? = t.head? := by
  have hflat := endedLines_flatten t
  rw [endedLines, if_neg hc]
  cases hlines : endedLines t with
  | nil =>
    rw [hlines] at hflat
    exact absurd hflat.symm hne
  | cons l ls =>
    refine ⟨l, ls, rfl, rfl, ?_⟩
    obtain ⟨b, -, ⟨rfl, -⟩ | ⟨rfl, hb, -⟩⟩ := endedLines_eq_cons hlines
    · rw [← hflat, hlines]
      simp
    · rw [← hflat, hlines]
      simp [List.head?_append_of_ne_nil _ hb]

end Text

namespace Report

/-- A diff as it is printed without colours. -/
def printed (t : Text) : Text := diff false t

theorem printed_eq (t : Text) :
    printed t = (Text.endedLines t).flatMap fun l => Text.printedBody l ++ ['\n'] := by
  simp [printed, diff, Text.printedLines, List.flatMap_map]

@[simp] theorem printed_feed (t : Text) : printed ('\n' :: t) = '\n' :: printed t := by
  simp [printed_eq, Text.endedLines, Text.printedBody, Text.dropLast?]

@[simp]
theorem printed_returnFeed (t : Text) : printed ('\r' :: '\n' :: t) = '\n' :: printed t := by
  simp [printed_eq, Text.endedLines, Text.printedBody, Text.dropLast?]

theorem printed_singleton {c : Char} (hc : c ≠ '\n') : printed [c] = [c, '\n'] := by
  simp [printed_eq, Text.endedLines, Text.printedBody, Text.dropLast?, hc]

theorem printed_cons {c : Char} {t : Text} (hc : c ≠ '\n') (hne : t ≠ [])
    (hlast : c = '\r' → t.head? ≠ some '\n') : printed (c :: t) = c :: printed t := by
  obtain ⟨l, ls, hlines, hcons, hhead⟩ := Text.endedLines_cons hc hne
  have hl : l ≠ [] := by
    rintro rfl
    exact hne (List.head?_eq_none_iff.mp hhead.symm)
  have hbody := Text.printedBody_cons hl fun h heq => hlast h (by rw [← hhead, heq]; rfl)
  rw [printed_eq, printed_eq, hlines, hcons, List.flatMap_cons, List.flatMap_cons, hbody]
  rfl

theorem printed_append {body t : Text} (hbody : Text.Unbroken body) (hne : t ≠ []) :
    printed (body ++ t) = body ++ printed t := by
  induction body with
  | nil => rfl
  | cons c body ih =>
    obtain ⟨⟨hfeed, hreturn⟩, hbody⟩ := Text.unbroken_cons.mp hbody
    rw [List.cons_append, printed_cons hfeed (by simp [hne]) fun h => absurd h hreturn, ih hbody]
    rfl

theorem printed_line {body : Text} (hbody : Text.Unbroken body) (t : Text) :
    printed (body ++ '\n' :: t) = body ++ '\n' :: printed t := by
  rw [printed_append hbody (by simp), printed_feed]

/-- Printing leaves a text as it is exactly when no line of it ends in a carriage return and a line
feed, and its last line ends in a line feed. -/
theorem printed_eq_self_iff {t : Text} (hne : t ≠ []) :
    printed t = t ↔ ¬ ['\r', '\n'] <:+: t ∧ t.getLast? = some '\n' := by
  induction t with
  | nil => exact absurd rfl hne
  | cons c t ih =>
    cases t with
    | nil =>
      by_cases hc : c = '\n'
      · subst hc
        exact iff_of_true (printed_feed []) (by decide)
      · rw [printed_singleton hc]
        simp [hc]
    | cons d t =>
      rw [List.infix_cons_iff, List.getLast?_cons_cons, not_or, and_assoc, ← ih (by simp)]
      by_cases hc : c = '\n'
      · subst hc
        simp
      · by_cases hd : c = '\r' ∧ d = '\n'
        · obtain ⟨rfl, rfl⟩ := hd
          simp
        · rw [printed_cons hc (by simp) (by simpa using fun h => not_and.mp hd h)]
          have hstart : ¬ ['\r', '\n'] <+: c :: d :: t := by
            rintro ⟨u, hu⟩
            simp only [List.cons_append, List.cons.injEq] at hu
            exact hd ⟨hu.1.symm, hu.2.1.symm⟩
          simp [hstart]

end Report

/-- What printing can make of a line. -/
inductive Text.Reprinted : Text → Text → Prop
  | same (l : Text) : Reprinted l l
  | unreturned (body : Text) : Reprinted (body ++ ['\r', '\n']) (body ++ ['\n'])
  | fed (body : Text) : Reprinted (body ++ ['\r']) (body ++ ['\r', '\n'])

instance : Std.Refl Text.Reprinted := ⟨.same⟩

namespace Text

theorem Reprinted.counts {l l' : Text} (h : Reprinted l l') :
    l'.count '\r' ≤ l.count '\r' ∧ l.count '\n' ≤ l'.count '\n' ∧
      (l'.count '\r' = l.count '\r' → l'.count '\n' = l.count '\n' → l = l') := by
  cases h with
  | same => exact ⟨Nat.le_refl _, Nat.le_refl _, fun _ _ => rfl⟩
  | unreturned body => simp
  | fed body => simp

theorem reprinted_counts {ls ls' : List Text} (h : List.Forall₂ Reprinted ls ls') :
    ls'.flatten.count '\r' ≤ ls.flatten.count '\r' ∧
      ls.flatten.count '\n' ≤ ls'.flatten.count '\n' ∧
      (ls'.flatten.count '\r' = ls.flatten.count '\r' →
        ls'.flatten.count '\n' = ls.flatten.count '\n' → ls = ls') := by
  induction h with
  | nil => exact ⟨Nat.le_refl _, Nat.le_refl _, fun _ _ => rfl⟩
  | cons hl _ ih =>
    obtain ⟨hreturn, hfeed, heq⟩ := hl.counts
    obtain ⟨hreturns, hfeeds, heqs⟩ := ih
    simp only [List.flatten_cons, List.count_append]
    refine ⟨by omega, by omega, fun hr hf => ?_⟩
    rw [heq (by omega) (by omega), heqs (by omega) (by omega)]

theorem eq_of_reprinted {ls ls' : List Text} (h : List.Forall₂ Reprinted ls ls')
    (hflat : ls.flatten = ls'.flatten) : ls = ls' :=
  (reprinted_counts h).2.2 (by rw [hflat]) (by rw [hflat])

end Text

inductive Edit.Reprinted : Edit → Edit → Prop
  | keep {l l' : Text} (h : Text.Reprinted l l') : Reprinted (.keep l) (.keep l')
  | remove {l l' : Text} (h : Text.Reprinted l l') : Reprinted (.remove l) (.remove l')
  | add {l l' : Text} (h : Text.Reprinted l l') : Reprinted (.add l) (.add l')

structure Hunk.Reprinted (h h' : Hunk) : Prop where
  oldBefore : h'.oldBefore = h.oldBefore
  newBefore : h'.newBefore = h.newBefore
  script : List.Forall₂ Edit.Reprinted h.script h'.script

namespace Script

open Text (Reprinted)

theorem forall₂_of_reprinted {s s' : Script} (h : List.Forall₂ Edit.Reprinted s s') :
    List.Forall₂ Reprinted s.old s'.old ∧ List.Forall₂ Reprinted s.new s'.new := by
  induction h with
  | nil => exact ⟨.nil, .nil⟩
  | cons he _ ih =>
    cases he with
    | keep hline => exact ⟨.cons hline ih.1, .cons hline ih.2⟩
    | remove hline => exact ⟨.cons hline ih.1, ih.2⟩
    | add hline => exact ⟨ih.1, .cons hline ih.2⟩

theorem eq_of_reprinted {s s' : Script} (h : List.Forall₂ Edit.Reprinted s s')
    (hold : s.old = s'.old) (hnew : s.new = s'.new) : s = s' := by
  induction h with
  | nil => rfl
  | cons he _ ih =>
    cases he with
    | keep hline =>
      obtain ⟨rfl, hold'⟩ := List.cons.inj hold
      rw [ih hold' (List.cons.inj hnew).2]
    | remove hline =>
      obtain ⟨rfl, hold'⟩ := List.cons.inj hold
      rw [ih hold' hnew]
    | add hline =>
      obtain ⟨rfl, hnew'⟩ := List.cons.inj hnew
      rw [ih hold hnew']

end Script

namespace Hunk

theorem Reprinted.counts {h h' : Hunk} (hh : h.Reprinted h') :
    h'.oldCount = h.oldCount ∧ h'.newCount = h.newCount := by
  obtain ⟨hold, hnew⟩ := Script.forall₂_of_reprinted hh.script
  exact ⟨hold.length_eq.symm, hnew.length_eq.symm⟩

theorem Reprinted.eq {h h' : Hunk} (hh : h.Reprinted h') (hold : h.script.old = h'.script.old)
    (hnew : h.script.new = h'.script.new) : h = h' := by
  cases h
  cases h'
  rw [Hunk.mk.injEq]
  exact ⟨hh.oldBefore.symm, hh.newBefore.symm, Script.eq_of_reprinted hh.script hold hnew⟩

/-- Hunks that are spread over scripts with the same old lines: the new lines differ as printing
makes them differ, and if they are the same then so are the hunks. -/
theorem Spread.reprinted {hs hs' : List Hunk} (hhs : List.Forall₂ Hunk.Reprinted hs hs') {o n : Nat}
    {s s' : Script} (hspread : Spread o n hs s) (hspread' : Spread o n hs' s')
    (hold : s.old = s'.old) :
    List.Forall₂ Text.Reprinted s.new s'.new ∧ (s.new = s'.new → hs = hs') := by
  induction hhs generalizing o n s s' with
  | nil =>
    obtain ⟨ls, rfl⟩ := hspread
    obtain ⟨ls', rfl⟩ := hspread'
    rw [Script.old_map_keep, Script.old_map_keep] at hold
    subst hold
    exact ⟨List.forall₂_refl _, fun _ => rfl⟩
  | @cons h h' hs hs' hh _ ih =>
    obtain ⟨ls, rest, rfl, hbefore, hnewBefore, hrest⟩ := hspread
    obtain ⟨ls', rest', rfl, hbefore', -, hrest'⟩ := hspread'
    obtain ⟨hlines, hlines'⟩ := Script.forall₂_of_reprinted hh.script
    have hgap : ls.length = ls'.length := by
      have := hh.oldBefore
      omega
    simp only [Script.old_append, Script.new_append, Script.old_map_keep,
      Script.new_map_keep] at hold ⊢
    obtain ⟨rfl, htail⟩ := List.append_inj hold hgap
    obtain ⟨hscript, htail⟩ := List.append_inj htail hlines.length_eq
    rw [hh.oldBefore, hh.newBefore, hh.counts.1, hh.counts.2] at hrest'
    obtain ⟨hnew, heq⟩ := ih hrest hrest' htail
    refine ⟨List.rel_append (List.forall₂_refl ls) (List.rel_append hlines' hnew), fun hsame => ?_⟩
    obtain ⟨hscript', hsame⟩ := List.append_inj (List.append_cancel_left hsame) hlines'.length_eq
    rw [heq hsame, hh.eq hscript hscript']

end Hunk

namespace Report

open Patch (Opens)

variable {t : Text}

theorem printed_row (sign : Char) (hsign : sign ≠ '\n' ∧ sign ≠ '\r') {l : Text}
    (hl : Text.IsLine l) (ht : Opens t) :
    ∃ l', Text.Reprinted l l' ∧ Text.IsLine l' ∧
      printed (Unified.row sign l ++ t) = Unified.row sign l' ++ printed t := by
  cases hl with
  | @ended body hbody ending =>
    have hprinted (e : Text.LineEnd) : printed (Unified.row sign (body ++ e.chars) ++ t) =
        sign :: body ++ printed (e.chars ++ t) := by
      rw [Unified.row_ended, List.append_assoc]
      exact printed_append (Text.unbroken_cons.mpr ⟨hsign, hbody⟩) (by cases e <;> nofun)
    have hback (e : Text.LineEnd) (u : Text) :
        sign :: body ++ (e.chars ++ u) = Unified.row sign (body ++ e.chars) ++ u := by
      rw [Unified.row_ended, List.append_assoc]
    rw [hprinted]
    cases ending with
    | lf =>
      refine ⟨_, .same _, .ended hbody .lf, ?_⟩
      exact (congrArg _ (printed_feed t)).trans (hback .lf _)
    | crlf =>
      refine ⟨_, .unreturned body, .ended hbody .lf, ?_⟩
      exact (congrArg _ (printed_returnFeed t)).trans (hback .lf _)
    | cr =>
      by_cases hend : t = []
      · subst hend
        refine ⟨_, .fed body, .ended hbody .crlf, ?_⟩
        exact (congrArg _ (printed_singleton (by decide))).trans (hback .crlf [])
      · refine ⟨_, .same _, .ended hbody .cr, ?_⟩
        exact (congrArg _ (printed_cons (by decide) hend fun _ => ht.1)).trans (hback .cr _)
  | unended hbody =>
    refine ⟨_, .same _, .unended hbody, ?_⟩
    have hsigned := Text.unbroken_cons.mpr ⟨hsign, hbody⟩
    have hsplit (u : Text) : Unified.row sign l ++ u =
        sign :: l ++ '\n' :: (Patch.remark ++ '\n' :: u) := by
      rw [Unified.row_unended sign hbody, Patch.missingEnding_eq, Patch.note]
      simp
    rw [hsplit, printed_line hsigned, printed_line Patch.unbroken_remark, hsplit]

theorem printed_edit {e : Edit} (he : Text.IsLine e.line) (ht : Opens t) :
    ∃ e', e.Reprinted e' ∧ Text.IsLine e'.line ∧
      printed (Unified.edit e ++ t) = Unified.edit e' ++ printed t := by
  cases e with
  | keep l =>
    obtain ⟨l', hrel, hl', hprinted⟩ := printed_row ' ' (by decide) he ht
    exact ⟨.keep l', .keep hrel, hl', hprinted⟩
  | remove l =>
    obtain ⟨l', hrel, hl', hprinted⟩ := printed_row '-' (by decide) he ht
    exact ⟨.remove l', .remove hrel, hl', hprinted⟩
  | add l =>
    obtain ⟨l', hrel, hl', hprinted⟩ := printed_row '+' (by decide) he ht
    exact ⟨.add l', .add hrel, hl', hprinted⟩

theorem printed_edits {s : Script} (hs : ∀ e ∈ s, Text.IsLine e.line) (ht : Opens t) :
    ∃ s', List.Forall₂ Edit.Reprinted s s' ∧ (∀ e ∈ s', Text.IsLine e.line) ∧
      printed ((s.map Unified.edit).flatten ++ t) =
        (s'.map Unified.edit).flatten ++ printed t := by
  induction s with
  | nil => exact ⟨[], .nil, nofun, rfl⟩
  | cons e s ih =>
    obtain ⟨he, hs⟩ := List.forall_mem_cons.mp hs
    obtain ⟨s', hrel, hlines, hprinted⟩ := ih hs
    obtain ⟨e', herel, heline, heprinted⟩ := printed_edit he (Patch.hunks?_edits hs ht).1
    refine ⟨e' :: s', .cons herel hrel, List.forall_mem_cons.mpr ⟨heline, hlines⟩, ?_⟩
    rw [List.map_cons, List.flatten_cons, List.append_assoc, heprinted, hprinted]
    simp

theorem printed_hunks {hs : List Hunk} (hlines : ∀ h ∈ hs, ∀ e ∈ h.script, Text.IsLine e.line) :
    ∃ hs', List.Forall₂ Hunk.Reprinted hs hs' ∧
      (∀ h ∈ hs', ∀ e ∈ h.script, Text.IsLine e.line) ∧
      printed (hs.map Unified.hunk).flatten = (hs'.map Unified.hunk).flatten := by
  induction hs with
  | nil => exact ⟨[], .nil, nofun, rfl⟩
  | cons h hs ih =>
    obtain ⟨hh, hlines⟩ := List.forall_mem_cons.mp hlines
    obtain ⟨hs', hrel, hlines', hprinted⟩ := ih hlines
    obtain ⟨s', hsrel, hslines, hsprinted⟩ := printed_edits hh (Patch.hunks?_hunks hlines).1
    let h' : Hunk := ⟨h.oldBefore, h.newBefore, s'⟩
    have hhrel : h.Reprinted h' := ⟨rfl, rfl, hsrel⟩
    have hranges : Unified.ranges h' = Unified.ranges h := by
      rw [Patch.ranges_eq, Patch.ranges_eq, hhrel.counts.1, hhrel.counts.2]
    obtain ⟨body, hbody, hfirst⟩ := Patch.unbroken_ranges h
    refine ⟨h' :: hs', .cons hhrel hrel, List.forall_mem_cons.mpr ⟨hslines, hlines'⟩, ?_⟩
    simp only [List.map_cons, List.flatten_cons, Unified.hunk, hranges, hfirst, List.append_assoc]
    rw [← hprinted, ← hsprinted]
    exact printed_line hbody _

theorem printed_render {path : Text} (hpath : Text.Unbroken path) {hs : List Hunk}
    (hlines : ∀ h ∈ hs, ∀ e ∈ h.script, Text.IsLine e.line) :
    ∃ hs', List.Forall₂ Hunk.Reprinted hs hs' ∧
      (∀ h ∈ hs', ∀ e ∈ h.script, Text.IsLine e.line) ∧
      printed (Unified.render path hs) = Unified.render path hs' := by
  obtain ⟨hs', hrel, hlines', hprinted⟩ := printed_hunks hlines
  obtain ⟨hold, hnew⟩ := Unified.unbroken_names hpath
  refine ⟨hs', hrel, hlines', ?_⟩
  rw [Unified.render, printed_line hold, printed_line hnew, hprinted]
  rfl

/-- The printed diff leads from the old text to the new one exactly when it is the diff itself. -/
theorem apply_printed_iff {path old new : Text} (hpath : Text.Unbroken path)
    (h : Unified.diff? path old new = some t) :
    Patch.apply (printed t) old = some new ↔ printed t = t := by
  constructor
  · intro happly
    have ht := Unified.diff?_eq_some h
    obtain ⟨hs', hrel, hlines', hprinted⟩ :=
      printed_render hpath (Patch.isLine_of_hunks old new)
    rw [← ht] at hprinted
    rw [hprinted, Patch.apply, Patch.ofText_render hpath hlines', Option.bind_some] at happly
    obtain ⟨out, hout, hflat⟩ := Option.map_eq_some_iff.mp happly
    obtain ⟨s', hspread', hold', rfl⟩ := Patch.replay_eq_some_iff.mp hout
    have hleads := Script.leads_shortest (Text.returnedLines old) (Text.returnedLines new)
    obtain ⟨hnew, heq⟩ := Hunk.Spread.reprinted hrel (Unified.spread_hunks old new) hspread'
      (hleads.1.trans hold'.symm)
    rw [hleads.2] at hnew heq
    have hsame := Text.eq_of_reprinted hnew (by rw [hflat, Text.returnedLines_flatten])
    rw [hprinted, ← heq hsame, ← ht]
  · intro hprinted
    rw [hprinted]
    exact Patch.apply_diff hpath h

end Report
end VersionDrift
