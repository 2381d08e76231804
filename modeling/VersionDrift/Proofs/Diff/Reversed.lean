import VersionDrift.Proofs.Diff.Framed
import VersionDrift.Proofs.Diff.Rendered

/-!
# Diffs in both directions

A script is turned around by adding what it removes and removing what it adds. Hunks that
are spread over a script are, turned around, spread over the script turned around, so a
diff leads from the old text to the new one and back.
-/

set_option autoImplicit false

namespace VersionDrift

def Edit.inverse : Edit → Edit
  | .keep l => .keep l
  | .remove l => .add l
  | .add l => .remove l

namespace Script

def inverse (s : Script) : Script := s.map Edit.inverse

theorem old_inverse (s : Script) : s.inverse.old = s.new := by
  induction s with
  | nil => rfl
  | cons e s ih =>
    cases e with
    | keep l => exact congrArg (l :: ·) ih
    | remove l => exact ih
    | add l => exact congrArg (l :: ·) ih

theorem new_inverse (s : Script) : s.inverse.new = s.old := by
  induction s with
  | nil => rfl
  | cons e s ih =>
    cases e with
    | keep l => exact congrArg (l :: ·) ih
    | remove l => exact congrArg (l :: ·) ih
    | add l => exact ih

theorem inverse_map_keep (ls : List Text) : inverse (ls.map .keep) = ls.map .keep :=
  List.map_map

theorem inverse_append (s t : Script) : inverse (s ++ t) = s.inverse ++ t.inverse :=
  List.map_append

theorem Leads.inverse {xs ys : List Text} {s : Script} (h : Leads xs ys s) :
    Leads ys xs s.inverse :=
  ⟨(old_inverse s).trans h.2, (new_inverse s).trans h.1⟩

@[simp] theorem commonHead_self (xs : List Text) : commonHead xs xs = (xs, [], []) := by
  induction xs with
  | nil => rfl
  | cons x xs ih => rw [commonHead, if_pos rfl, ih]

@[simp] theorem shortest_self (xs : List Text) : shortest xs xs = xs.map .keep := by
  rw [shortest, commonHead_self]
  have hall : xs.map .keep ++ [] ++ [] = xs.map Edit.keep :=
    (List.append_nil _).trans (List.append_nil _)
  exact (congrArg (settle []) hall).trans (settle_map_keep xs)

end Script

namespace Hunk

def inverse (h : Hunk) : Hunk := ⟨h.newBefore, h.oldBefore, h.script.inverse⟩

theorem oldCount_inverse (h : Hunk) : h.inverse.oldCount = h.newCount :=
  congrArg List.length (Script.old_inverse h.script)

theorem newCount_inverse (h : Hunk) : h.inverse.newCount = h.oldCount :=
  congrArg List.length (Script.new_inverse h.script)

theorem Spread.inverse {o n : Nat} {hs : List Hunk} {s : Script} (h : Spread o n hs s) :
    Spread n o (hs.map Hunk.inverse) s.inverse := by
  induction hs generalizing o n s with
  | nil =>
    obtain ⟨ls, rfl⟩ := h
    exact ⟨ls, Script.inverse_map_keep ls⟩
  | cons g hs ih =>
    obtain ⟨ls, rest, rfl, hold, hnew, hrest⟩ := h
    refine ⟨ls, rest.inverse, ?_, hnew, hold, ?_⟩
    · rw [Script.inverse_append, Script.inverse_append, Script.inverse_map_keep]
      rfl
    · rw [oldCount_inverse, newCount_inverse]
      exact ih hrest

end Hunk

namespace Unified

def ofScript? (path : Text) (s : Script) : Option Text :=
  match Hunk.ofScript contextLines s with
  | [] => none
  | hs => some (render path hs)

theorem ofScript?_eq_none_iff {path : Text} {s : Script} :
    ofScript? path s = none ↔ ∃ ls : List Text, s = ls.map .keep := by
  rw [← @Hunk.ofScript_eq_nil_iff contextLines, ofScript?]
  cases Hunk.ofScript contextLines s with
  | nil => exact iff_of_true rfl rfl
  | cons h hs => exact iff_of_false nofun nofun

theorem ofScript?_eq_some {path t : Text} {s : Script} (h : ofScript? path s = some t) :
    t = render path (Hunk.ofScript contextLines s) := by
  unfold ofScript? at h
  split at h
  · cases h
  · exact (Option.some.inj h).symm

theorem diff?_eq_ofScript? (path old new : Text) :
    diff? path old new =
      ofScript? path (Script.shortest (Text.returnedLines old) (Text.returnedLines new)) := by
  unfold diff? ofScript? hunks
  cases Hunk.ofScript contextLines
      (Script.shortest (Text.returnedLines old) (Text.returnedLines new)) with
  | nil => rfl
  | cons h hs =>
    refine congrArg some ?_
    rw [List.append_assoc, List.append_assoc, List.append_assoc]
    rfl

end Unified

namespace Patch

/-- The hunks lead from the lines `xs` to the lines `ys` and back: they stand in order and apart,
each shows few kept lines at its ends, and each has the place and the lines that it states. -/
structure Between (xs ys : List Text) (hs : List Hunk) : Prop where
  ordered : hs.Pairwise Hunk.Precedes
  framed : ∀ h ∈ hs, h.IsFramed Unified.contextLines
  forward : replay 0 0 hs xs = some ys
  backward : replay 0 0 (hs.map Hunk.inverse) ys = some xs

theorem between_ofScript {xs ys : List Text} {s : Script} (h : Script.Leads xs ys s) :
    Between xs ys (Hunk.ofScript Unified.contextLines s) := by
  have hspread := Hunk.spread_ofScript Unified.contextLines s
  exact {
    ordered := Hunk.pairwise_ofScript _ s
    framed := Hunk.isFramed_ofScript _ s
    forward := replay_eq_some_iff.mpr ⟨s, hspread, h⟩
    backward := replay_eq_some_iff.mpr ⟨s.inverse, hspread.inverse, h.inverse⟩ }

/-- The text names the file and then shows hunks that lead from the one text to the other and
back; ranges are read with the hunks, and count their lines right. -/
def Restores (path old new t : Text) : Prop :=
  ∃ (body : Text) (hs : List Hunk),
    t = Unified.oldName path ++ '\n' :: (Unified.newName path ++ '\n' :: body) ∧
      hunks? (lines body) = some ([], hs) ∧
      Between (Text.returnedLines old) (Text.returnedLines new) hs

theorem restores_ofScript? {path old new t : Text} {s : Script}
    (hs : Script.Leads (Text.returnedLines old) (Text.returnedLines new) s)
    (h : Unified.ofScript? path s = some t) : Restores path old new t := by
  have hspread := Hunk.spread_ofScript Unified.contextLines s
  have hlines : ∀ g ∈ Hunk.ofScript Unified.contextLines s, ∀ e ∈ g.script,
      Text.IsLine e.line := fun g hg e he => isLine_of_leads hs (hspread.mem hg he)
  exact ⟨_, _, Unified.ofScript?_eq_some h, (hunks?_hunks hlines).2, between_ofScript hs⟩

/-- Texts have no diff exactly when they are the same, and their diff leads from the old one to
the new one and back. The second holds of any script between their lines. -/
theorem diff_restores (path old new : Text) :
    (Unified.diff? path old new = none ↔ old = new) ∧
      (∀ t, Unified.diff? path old new = some t → Restores path old new t) ∧
      ∀ s, Script.Leads (Text.returnedLines old) (Text.returnedLines new) s →
        (Unified.ofScript? path s = none → old = new) ∧
          ∀ t, Unified.ofScript? path s = some t → Restores path old new t := by
  have hleads := Script.leads_shortest (Text.returnedLines old) (Text.returnedLines new)
  have hnone {s : Script} (hs : Script.Leads (Text.returnedLines old) (Text.returnedLines new) s)
      (h : Unified.ofScript? path s = none) : old = new := by
    obtain ⟨ls, rfl⟩ := Unified.ofScript?_eq_none_iff.mp h
    have hsame : Script.old (ls.map .keep) = Script.new (ls.map .keep) := by
      rw [Script.old_map_keep, Script.new_map_keep]
    exact Text.returnedLines_injective (hs.1.symm.trans (hsame.trans hs.2))
  rw [Unified.diff?_eq_ofScript?]
  refine ⟨⟨hnone hleads, ?_⟩, fun t => restores_ofScript? hleads, fun s hs =>
    ⟨hnone hs, fun t => restores_ofScript? hs⟩⟩
  rintro rfl
  rw [Script.shortest_self]
  exact Unified.ofScript?_eq_none_iff.mpr ⟨_, rfl⟩

theorem diff_restores_mixed_endings :
    let path := "recipe.yaml".toList
    let old := "a\r\nb\rc".toList
    let new := "a\r\nb\rd\n".toList
    let script : Script := [.remove "a\r\n".toList, .add "a\r\n".toList, .keep "b\r".toList,
      .remove "c".toList, .add "d\n".toList]
    (∃ t, Unified.diff? path old new = some t ∧ Restores path old new t) ∧
      Script.Leads (Text.returnedLines old) (Text.returnedLines new) script ∧
      ∃ t, Unified.ofScript? path script = some t ∧ Restores path old new t := by
  intro path old new script
  obtain ⟨hsame, hdiff, hscript⟩ := diff_restores path old new
  have hleads : Script.Leads (Text.returnedLines old) (Text.returnedLines new) script :=
    ⟨by decide +kernel, by decide +kernel⟩
  have hchanged : old ≠ new := by decide
  refine ⟨?_, hleads, ?_⟩
  · obtain ⟨t, ht⟩ := Option.ne_none_iff_exists'.mp fun h => hchanged (hsame.mp h)
    exact ⟨t, ht, hdiff t ht⟩
  · obtain ⟨hnone, hsome⟩ := hscript script hleads
    obtain ⟨t, ht⟩ := Option.ne_none_iff_exists'.mp fun h => hchanged (hnone h)
    exact ⟨t, ht, hsome t ht⟩

end Patch
end VersionDrift
