import VersionDrift.Proofs.Decimal
import VersionDrift.Proofs.Diff.Patch
import VersionDrift.Proofs.Text.Line
import VersionDrift.Proofs.Text.Returned
import VersionDrift.Proofs.Text.Split

/-!
# Reading a diff back

What is written of a hunk is read back as that hunk, as long as each edit is about one
line. So the diff between two texts applies to the old one and leads to the new one.
-/

set_option autoImplicit false

namespace VersionDrift

def Edit.sign : Edit → Char
  | keep _ => ' '
  | remove _ => '-'
  | add _ => '+'

namespace Unified

theorem edit_eq_row (e : Edit) : edit e = row e.sign e.line := by cases e <;> rfl

@[simp]
theorem isEnded_append (body : Text) (e : Text.LineEnd) : isEnded (body ++ e.chars) = true := by
  cases e <;> simp [isEnded]

theorem isEnded_of_unbroken {t : Text} (h : Text.Unbroken t) : isEnded t = false := by
  simp [isEnded, h.getLast?_ne.1, h.getLast?_ne.2]

@[simp] theorem row_ended (sign : Char) (body : Text) (e : Text.LineEnd) :
    row sign (body ++ e.chars) = sign :: body ++ e.chars := by
  simp [row]

theorem row_unended (sign : Char) {body : Text} (h : Text.Unbroken body) :
    row sign body = sign :: body ++ missingEnding := by
  simp [row, isEnded_of_unbroken h]

theorem mem_range {before count : Nat} {c : Char} (h : c ∈ range before count) :
    c.isDigit = true ∨ c = ',' := by
  unfold range at h
  split at h
  · exact .inl (Decimal.isDigit_of_mem_ofNat h)
  · rcases List.mem_append.mp h with h | h
    · exact .inl (Decimal.isDigit_of_mem_ofNat h)
    · rcases List.mem_cons.mp h with rfl | h
      · exact .inr rfl
      · exact .inl (Decimal.isDigit_of_mem_ofNat h)

theorem not_mem_range {before count : Nat} {c : Char} (hdigit : c.isDigit = false) (hne : c ≠ ',') :
    c ∉ range before count := by
  intro h
  rcases mem_range h with h | h
  · rw [hdigit] at h
    cases h
  · exact hne h

end Unified

namespace Patch

open Unified (range ranges missingEnding isEnded)

theorem range?_range (before count : Nat) : range? (range before count) = some (before, count) := by
  have hcomma (n : Nat) : ',' ∉ Decimal.ofNat n := fun h => by
    have := Decimal.isDigit_of_mem_ofNat h
    cases this
  by_cases hone : count = 1
  · rw [range, if_pos hone, range?, Text.splitAt_of_not_mem (hcomma _)]
    simp [hone]
  · rw [range, if_neg hone, range?, Text.splitAt_append (hcomma _),
      Text.splitAt_of_not_mem (hcomma _)]
    by_cases hzero : count = 0 <;> simp [hzero]

theorem ranges_eq (h : Hunk) :
    ranges h = ['@', '@'] ++ ' ' :: (('-' :: range h.oldBefore h.oldCount) ++
      ' ' :: (('+' :: range h.newBefore h.newCount) ++ ' ' :: ['@', '@', '\n'])) := by
  delta ranges
  rw [List.append_assoc, List.append_assoc, List.append_assoc]
  rfl

theorem ranges?_ranges (h : Hunk) :
    ranges? (ranges h) = some ((h.oldBefore, h.oldCount), (h.newBefore, h.newCount)) := by
  have hspace {c : Char} (hc : ' ' ≠ c) (b n : Nat) : ' ' ∉ c :: range b n :=
    List.not_mem_cons_of_ne_of_not_mem hc (Unified.not_mem_range (by decide) (by decide))
  have hsplit : Text.splitAt ' ' (ranges h) =
      [['@', '@'], '-' :: range h.oldBefore h.oldCount, '+' :: range h.newBefore h.newCount,
        ['@', '@', '\n']] := by
    rw [ranges_eq, Text.splitAt_append (by decide), Text.splitAt_append (hspace (by decide) _ _),
      Text.splitAt_append (hspace (by decide) _ _)]
    rfl
  unfold ranges?
  rw [hsplit]
  simp only [range?_range, Option.bind_some, Option.map_some]

@[simp] theorem edit?_signed (e : Edit) : edit? (e.sign :: e.line) = some e := by cases e <;> rfl

def lines (t : Text) : List Text := unnoted (Text.returnedLines t)

/-- The text neither goes on with the line before it nor begins with a note. -/
def Opens (t : Text) : Prop := t.head? ≠ some '\n' ∧ t.head? ≠ some '\\'

theorem head?_returnedLines {t l : Text} {ls : List Text} (h : Text.returnedLines t = l :: ls) :
    l.head? = t.head? := by
  cases t with
  | nil => cases h
  | cons c t =>
    unfold Text.returnedLines at h
    split at h
    · rw [← (List.cons.inj h).1]
      rfl
    · split at h <;> rw [← (List.cons.inj h).1] <;> rfl

theorem Opens.head?_ne_note {t : Text} (h : Opens t) :
    (Text.returnedLines t).head? ≠ some note := by
  intro hnote
  cases hlines : Text.returnedLines t with
  | nil => rw [hlines] at hnote; cases hnote
  | cons l ls =>
    rw [hlines] at hnote
    obtain rfl := Option.some.inj hnote
    exact h.2 (head?_returnedLines hlines).symm

theorem unnoted_cons {l : Text} {ls : List Text} (h : ls.head? ≠ some note) :
    unnoted (l :: ls) = l :: unnoted ls := by
  cases ls with
  | nil => rfl
  | cons k ls => exact if_neg fun heq => h (congrArg some heq)

@[simp] theorem unnoted_note (l : Text) (ls : List Text) :
    unnoted ((l ++ ['\n']) :: note :: ls) = l :: unnoted ls := by
  rw [unnoted, if_pos rfl, Text.dropLast?_append]
  rfl

theorem lines_ended {body t : Text} (hbody : Text.Unbroken body) (e : Text.LineEnd) (ht : Opens t) :
    lines (body ++ e.chars ++ t) = (body ++ e.chars) :: lines t := by
  rw [lines, Text.returnedLines_ended hbody e fun _ => ht.1, unnoted_cons ht.head?_ne_note]
  rfl

theorem unbroken_remark : Text.Unbroken remark := by decide +kernel

theorem missingEnding_eq : missingEnding = '\n' :: note := by decide +kernel

theorem lines_unended {body : Text} (hbody : Text.Unbroken body) (t : Text) :
    lines (body ++ missingEnding ++ t) = body :: lines t := by
  have hsplit : body ++ missingEnding ++ t =
      body ++ Text.LineEnd.lf.chars ++ (remark ++ Text.LineEnd.lf.chars ++ t) := by
    simp [missingEnding_eq, note]
  rw [lines, hsplit, Text.returnedLines_ended hbody .lf (by simp),
    Text.returnedLines_ended unbroken_remark .lf (by simp)]
  exact unnoted_note body _

theorem sign_ne (e : Edit) : e.sign ≠ '\n' ∧ e.sign ≠ '\r' ∧ e.sign ≠ '\\' := by
  cases e <;> simp [Edit.sign]

theorem lines_edit {e : Edit} (he : Text.IsLine e.line) {t : Text} (ht : Opens t) :
    lines (Unified.edit e ++ t) = (e.sign :: e.line) :: lines t := by
  obtain ⟨hfeed, hreturn, -⟩ := sign_ne e
  rw [Unified.edit_eq_row]
  generalize e.line = l at he ⊢
  cases he with
  | @ended body hbody ending =>
    rw [Unified.row_ended]
    exact lines_ended (Text.unbroken_cons.mpr ⟨⟨hfeed, hreturn⟩, hbody⟩) ending ht
  | unended hbody =>
    rw [Unified.row_unended _ hbody]
    exact lines_unended (Text.unbroken_cons.mpr ⟨⟨hfeed, hreturn⟩, hbody⟩) t

theorem opens_edit (e : Edit) (t : Text) : Opens (Unified.edit e ++ t) := by
  obtain ⟨hfeed, -, hnote⟩ := sign_ne e
  rw [Unified.edit_eq_row]
  simp [Opens, Unified.row, hfeed, hnote]

theorem unbroken_ranges (h : Hunk) :
    ∃ body, Text.Unbroken body ∧ ranges h = body ++ Text.LineEnd.lf.chars := by
  have hrange (before count : Nat) : Text.Unbroken (range before count) := by
    intro c hc
    constructor <;> rintro rfl <;> exact Unified.not_mem_range (by decide) (by decide) hc
  refine ⟨['@', '@'] ++ ' ' :: (('-' :: range h.oldBefore h.oldCount) ++
      ' ' :: (('+' :: range h.newBefore h.newCount) ++ ' ' :: ['@', '@'])), ?_, ?_⟩
  · simp [Text.Unbroken.append, hrange]
  · rw [ranges_eq]
    simp

theorem lines_ranges (h : Hunk) {t : Text} (ht : Opens t) :
    lines (ranges h ++ t) = ranges h :: lines t := by
  obtain ⟨body, hbody, heq⟩ := unbroken_ranges h
  rw [heq]
  exact lines_ended hbody .lf ht

theorem hunks?_edits {s : Script} (hs : ∀ e ∈ s, Text.IsLine e.line) {t : Text} (ht : Opens t) :
    Opens ((s.map Unified.edit).flatten ++ t) ∧
      hunks? (lines ((s.map Unified.edit).flatten ++ t)) =
        (hunks? (lines t)).map fun (s', hs) => (s ++ s', hs) := by
  induction s with
  | nil => exact ⟨ht, by simp⟩
  | cons e s ih =>
    obtain ⟨he, hs⟩ := List.forall_mem_cons.mp hs
    obtain ⟨hopens, hread⟩ := ih hs
    rw [List.map_cons, List.flatten_cons, List.append_assoc]
    refine ⟨opens_edit e _, ?_⟩
    rw [lines_edit he hopens, hunks?, hread]
    cases hunks? (lines t) with
    | none => rfl
    | some p => simp

theorem hunks?_hunks {hs : List Hunk} (hlines : ∀ h ∈ hs, ∀ e ∈ h.script, Text.IsLine e.line) :
    Opens (hs.map Unified.hunk).flatten ∧
      hunks? (lines (hs.map Unified.hunk).flatten) = some ([], hs) := by
  induction hs with
  | nil => exact ⟨⟨by simp, by simp⟩, rfl⟩
  | cons h hs ih =>
    obtain ⟨hh, hlines⟩ := List.forall_mem_cons.mp hlines
    obtain ⟨hopens, hread⟩ := ih hlines
    obtain ⟨hopens, hread'⟩ := hunks?_edits hh hopens
    rw [List.map_cons, List.flatten_cons, Unified.hunk, List.append_assoc]
    refine ⟨⟨by simp [ranges_eq], by simp [ranges_eq]⟩, ?_⟩
    have hnoEdit : edit? (ranges h) = none := by rw [ranges_eq]; rfl
    rw [lines_ranges h hopens, hunks?, hread', hread]
    simp [hnoEdit, ranges?_ranges]

end Patch

namespace Unified

def oldName (path : Text) : Text := "--- a/".toList ++ path

def newName (path : Text) : Text := "+++ b/".toList ++ path

def render (path : Text) (hs : List Hunk) : Text :=
  oldName path ++ '\n' :: (newName path ++ '\n' :: (hs.map hunk).flatten)

theorem diff?_eq_some {path old new t : Text} (h : diff? path old new = some t) :
    t = render path (hunks old new) := by
  unfold diff? at h
  split at h
  · cases h
  · rw [← Option.some.inj h, List.append_assoc, List.append_assoc, List.append_assoc]
    rfl

theorem diff?_ne_nil {path old new t : Text} (h : diff? path old new = some t) : t ≠ [] := by
  rw [diff?_eq_some h, render]
  simp

theorem unbroken_names {path : Text} (h : Text.Unbroken path) :
    Text.Unbroken (oldName path) ∧ Text.Unbroken (newName path) := by
  constructor
  · exact (by decide +kernel : Text.Unbroken "--- a/".toList).append h
  · exact (by decide +kernel : Text.Unbroken "+++ b/".toList).append h

end Unified

namespace Patch

open Unified (hunks)

theorem ofText_render {path : Text} (hpath : Text.Unbroken path) {hs : List Hunk}
    (hlines : ∀ h ∈ hs, ∀ e ∈ h.script, Text.IsLine e.line) :
    ofText (Unified.render path hs) = some hs := by
  obtain ⟨hold, hnew⟩ := Unified.unbroken_names hpath
  have hsplit : Unified.render path hs = Unified.oldName path ++ Text.LineEnd.lf.chars ++
      (Unified.newName path ++ Text.LineEnd.lf.chars ++ (hs.map Unified.hunk).flatten) := by
    simp [Unified.render]
  have hread := (hunks?_hunks hlines).2
  rw [lines] at hread
  have hstarts : (Text.startsWith "--- ".toList (Unified.oldName path ++ Text.LineEnd.lf.chars) &&
      Text.startsWith "+++ ".toList (Unified.newName path ++ Text.LineEnd.lf.chars)) = true := rfl
  rw [ofText, hsplit, Text.returnedLines_ended hold .lf (by simp),
    Text.returnedLines_ended hnew .lf (by simp)]
  simp only [hstarts, hread, if_true]

theorem isLine_of_leads {old new : Text} {s : Script}
    (h : Script.Leads (Text.returnedLines old) (Text.returnedLines new) s) {e : Edit}
    (he : e ∈ s) : Text.IsLine e.line := by
  rcases Script.mem_old_or_new he with hmem | hmem
  · rw [h.1] at hmem
    exact Text.isLine_of_mem_returnedLines hmem
  · rw [h.2] at hmem
    exact Text.isLine_of_mem_returnedLines hmem

theorem isLine_of_hunks (old new : Text) :
    ∀ h ∈ hunks old new, ∀ e ∈ h.script, Text.IsLine e.line := fun _ hh _ he =>
  isLine_of_leads (Script.leads_shortest _ _) ((Unified.spread_hunks old new).mem hh he)

/-- The diff between two texts applies to the old one and leads to the new one. -/
theorem apply_diff {path old new t : Text} (hpath : Text.Unbroken path)
    (h : Unified.diff? path old new = some t) : apply t old = some new := by
  have hreplay : replay 0 0 (hunks old new) (Text.returnedLines old) =
      some (Text.returnedLines new) :=
    replay_eq_some_iff.mpr ⟨_, Unified.spread_hunks old new, Script.leads_shortest _ _⟩
  rw [apply, Unified.diff?_eq_some h, ofText_render hpath (isLine_of_hunks old new),
    Option.bind_some, hreplay, Option.map_some, Text.returnedLines_flatten]

end Patch
end VersionDrift
