import VersionDrift.Proofs.Yaml.Breaks
import VersionDrift.Proofs.Yaml.Progress

/-!
# Words of plain scalars

Reading a plain scalar folds the white space in it and leaves the rest alone. So a plain
scalar without white space stands in the text as it is.
-/

set_option autoImplicit false

namespace VersionDrift

namespace Yaml

def IsWord (t : Text) : Prop := ∀ c ∈ t, isBlank c = false ∧ isBreak c = false

end Yaml

open Yaml

theorem Decimal.word_of_digit? {radix d : Nat} {c : Char} (h : digit? radix c = some d) :
    isBlank c = false ∧ isBreak c = false := by
  constructor
  · simp only [isBlank, Bool.or_eq_false_iff, decide_eq_false_iff_not]
    constructor <;> rintro rfl <;> simp [digit?] at h
  · simp only [isBreak, Bool.or_eq_false_iff, decide_eq_false_iff_not]
    refine ⟨⟨?_, ?_⟩, ?_⟩ <;> rintro rfl <;> simp [digit?] at h

namespace Yaml

namespace Gap

def IsWhite : Gap → Prop
  | blanks cs => ∀ c ∈ cs, isBlank c = true
  | breaks none _ => False
  | breaks (some b) more => isBreak b = true ∧ ∀ c ∈ more, isBreak c = true

variable {g : Gap} {c : Char}

theorem isWhite_empty : IsWhite .empty := nofun

theorem folded_of_isEmpty (h : g.isEmpty = true) : g.folded = [] := by
  cases g with
  | blanks cs =>
    cases cs with
    | nil => rfl
    | cons c cs => cases h
  | breaks first more => cases h

theorem IsWhite.addBlank (h : g.IsWhite) (hc : isBlank c = true) :
    (g.addBlank c).IsWhite ∧ (g.addBlank c).isEmpty = false := by
  cases g with
  | blanks cs =>
    refine ⟨fun d hd => ?_, by cases cs <;> rfl⟩
    rcases List.mem_append.mp hd with hd | hd
    · exact h d hd
    · rwa [List.mem_singleton.mp hd]
  | breaks first more => exact ⟨h, rfl⟩

theorem IsWhite.addBreak (h : g.IsWhite) (hc : isBreak c = true) :
    (g.addBreak c).IsWhite ∧ (g.addBreak c).isEmpty = false := by
  cases g with
  | blanks cs => exact ⟨⟨hc, by simp⟩, rfl⟩
  | breaks first more =>
    cases first with
    | none => exact h.elim
    | some b =>
      refine ⟨⟨h.1, fun d hd => ?_⟩, rfl⟩
      rcases List.mem_append.mp hd with hd | hd
      · exact h.2 d hd
      · rwa [List.mem_singleton.mp hd]

theorem IsWhite.not_isWord (h : g.IsWhite) (hne : g.isEmpty = false) : ¬ IsWord g.folded := by
  intro hword
  cases g with
  | blanks cs =>
    cases cs with
    | nil => cases hne
    | cons c cs =>
      have hc := (hword c List.mem_cons_self).1
      rw [h c List.mem_cons_self] at hc
      cases hc
  | breaks first more =>
    cases first with
    | none => exact h
    | some b =>
      rw [folded] at hword
      split at hword
      · cases more with
        | nil =>
          have hspace := (hword ' ' (by simp)).1
          cases hspace
        | cons c more =>
          have hc := (hword c (by simp)).2
          rw [h.2 c List.mem_cons_self] at hc
          cases hc
      · have hb := (hword b List.mem_cons_self).2
        rw [h.1] at hb
        cases hb

end Gap

namespace PlainScalar

variable {inFlow : Bool} {indent : Nat} {p : PlainScalar}

theorem text_readFrom {t : Text} {line column : Nat} {acc : Text} {gap : Gap} (hgap : gap.IsWhite)
    (h : readFrom inFlow indent t line column acc gap = .ok p) :
    ∃ x, p.text = acc.reverse ++ x ∧ (IsWord x → x = [] ∨ gap.isEmpty = true ∧ x <+: t) := by
  induction t generalizing line column acc gap with
  | nil =>
    cases h
    exact ⟨[], (List.append_nil _).symm, fun _ => .inl rfl⟩
  | cons c t ih =>
    have hstop {q : PlainScalar} (hq : q.text = acc.reverse) :
        ∃ x, q.text = acc.reverse ++ x ∧
          (IsWord x → x = [] ∨ gap.isEmpty = true ∧ x <+: c :: t) :=
      ⟨[], by rw [hq, List.append_nil], fun _ => .inl rfl⟩
    have hwhite {g : Gap} {line column : Nat} (hg : g.IsWhite ∧ g.isEmpty = false)
        (h : readFrom inFlow indent t line column acc g = .ok p) :
        ∃ x, p.text = acc.reverse ++ x ∧
          (IsWord x → x = [] ∨ gap.isEmpty = true ∧ x <+: c :: t) := by
      obtain ⟨x, hx, hword⟩ := ih hg.1 h
      refine ⟨x, hx, fun hxs => .inl ?_⟩
      rcases hword hxs with hnil | ⟨hempty, -⟩
      · exact hnil
      · rw [hg.2] at hempty
        cases hempty
    rw [readFrom] at h
    split at h
    · next hblank =>
      split at h
      · cases h
      · exact hwhite (hgap.addBlank hblank) h
    split at h
    · next hbreak => exact hwhite (hgap.addBreak hbreak) h
    split at h
    · cases h
      exact hstop rfl
    split at h
    · cases h
    split at h
    · cases h
      exact hstop rfl
    · obtain ⟨x, hx, hword⟩ := ih Gap.isWhite_empty h
      refine ⟨gap.folded ++ c :: x, by rw [hx]; simp, fun hxs => .inr ?_⟩
      have hempty : gap.isEmpty = true := by
        refine Decidable.byContradiction fun hne => ?_
        exact hgap.not_isWord (Bool.not_eq_true _ ▸ hne)
          fun d hd => hxs d (List.mem_append_left _ hd)
      have hx' : IsWord x := fun d hd =>
        hxs d (List.mem_append_right _ (List.mem_cons_of_mem _ hd))
      refine ⟨hempty, ?_⟩
      rw [Gap.folded_of_isEmpty hempty, List.nil_append]
      refine List.prefix_cons_inj c |>.mpr ?_
      rcases hword hx' with rfl | ⟨-, hprefix⟩
      · exact List.nil_prefix
      · exact hprefix

theorem prefix_read {c : Cursor} (h : read inFlow indent c = .ok p) (hword : IsWord p.text) :
    p.text <+: c.rest := by
  obtain ⟨x, hx, hprefix⟩ := text_readFrom Gap.isWhite_empty h
  rw [List.reverse_nil, List.nil_append] at hx
  subst hx
  rcases hprefix hword with hnil | ⟨-, hprefix⟩
  · rw [hnil]
    exact List.nil_prefix
  · exact hprefix

end PlainScalar

namespace Layout

variable {s r : Layout} {t w : Text}

/-- A word that a step reads stands at the cursor. -/
theorem Steps.word (h : s.Steps r) (hmem : .scalar w .plain ∈ r.emitted) (hw : IsWord w) :
    .scalar w .plain ∈ s.emitted ∨ w <+: s.cursor.rest := by
  cases h with
  | mark settles mark =>
    rcases List.mem_cons.mp hmem with rfl | hmem
    · cases mark
    · exact .inl (settles.2 _ hmem rfl)
  | read settles spells =>
    rcases List.mem_cons.mp hmem with hu | hmem
    · refine .inr ?_
      cases spells with
      | directive read =>
        rcases Property.token_of_directive read with ⟨_, _, rfl⟩ | ⟨_, _, rfl⟩ <;> cases hu
      | tag begins read =>
        obtain ⟨_, _, rfl⟩ := Property.token_of_tag read
        cases hu
      | plain rest begins read =>
        cases hu
        exact PlainScalar.prefix_read read hw
      | @block literal => cases literal <;> cases hu
      | @quoted single => cases single <;> cases hu
      | _ => cases hu
    · exact .inl (settles.2 _ hmem rfl)

theorem Reads.word (h : Reads t s) (hmem : .scalar w .plain ∈ s.emitted) (hw : IsWord w) :
    w <:+: t := by
  induction h with
  | start => cases hmem
  | @next s r reads step ih =>
    rcases (steps_of_next step).2.word hmem hw with hmem | hprefix
    · exact ih hmem
    · have hskip : s.skipped.cursor.rest <:+ s.cursor.rest := suffix_skipSpace ..
      exact hprefix.isInfix.trans (hskip.trans reads.suffix).isInfix

theorem Reads.word_of_run {n : Nat} {ts : List Token} (h : Reads t s) (hrun : s.run n = .ok ts)
    (hmem : .scalar w .plain ∈ ts) (hw : IsWord w) : w <:+: t := by
  induction n generalizing s with
  | zero => cases hrun
  | succ n ih =>
    obtain ⟨o, ho, hrun⟩ := bind_eq_ok hrun
    cases o with
    | some r => exact ih (h.next ho) hrun
    | none =>
      obtain ⟨q, hq, hts⟩ := bind_eq_ok hrun
      cases hts
      have hsettles := (Settles.closeAll s).trans (.dropCandidate hq)
      exact h.word (hsettles.2 _ (List.mem_reverse.mp hmem) rfl) hw

end Layout

theorem IsWord.not_mem {t : Text} (h : IsWord t) : '\n' ∉ t := by
  intro hmem
  cases (h '\n' hmem).2

/-- A plain scalar that is a word stands in the text. -/
theorem Token.infix_of_ofText {t w : Text} {ts : List Token} (h : Token.ofText t = .ok ts)
    (hmem : .scalar w .plain ∈ ts) (hw : IsWord w) : w <:+: t := by
  obtain ⟨-, n, hn⟩ := Token.ofText_eq_ok.mp h
  exact infix_of_unifyBreaks false hw.not_mem (Layout.Reads.start.word_of_run hn hmem hw)

end Yaml
end VersionDrift
