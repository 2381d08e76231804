import VersionDrift.Diff.Unified
import VersionDrift.Proofs.Diff.Script

/-!
# Hunks of a script

The hunks of a script are spread over it: between them stand kept lines only, and each
states the numbers of the old and of the new lines before it.
-/

set_option autoImplicit false

namespace VersionDrift

open Script (old_append new_append old_map_keep new_map_keep map_keep_split)

namespace Change

def joined (cs : List Change) (tail : List Text) : Script :=
  (cs.map whole).flatten ++ tail.map .keep

@[simp] theorem joined_cons (c : Change) (cs : List Change) (tail : List Text) :
    joined (c :: cs) tail = c.kept.map .keep ++ (c.changed ++ joined cs tail) := by
  simp [joined, whole]

/-- What an edit adds to the changes after it: the first one takes it, unless that one begins with
kept lines and the edit keeps none. -/
inductive Prepends : Edit → List Change × List Text → List Change × List Text → Prop
  | tail (l : Text) (tail : List Text) : Prepends (.keep l) ([], tail) ([], l :: tail)
  | kept (l : Text) (c : Change) (cs : List Change) (tail : List Text) :
      Prepends (.keep l) (c :: cs, tail) ({ c with kept := l :: c.kept } :: cs, tail)
  | changed {e : Edit} (other : ∀ l, e ≠ .keep l) (changed : Script) (cs : List Change)
      (tail : List Text) :
      Prepends e (⟨[], changed⟩ :: cs, tail) (⟨[], e :: changed⟩ :: cs, tail)
  | first {e : Edit} (other : ∀ l, e ≠ .keep l) (cs : List Change) (tail : List Text) :
      Prepends e (cs, tail) (⟨[], [e]⟩ :: cs, tail)

theorem prepends_split (e : Edit) (s : Script) : Prepends e (split s) (split (e :: s)) := by
  by_cases hkeep : ∃ l, e = .keep l
  · obtain ⟨l, rfl⟩ := hkeep
    rw [split]
    rcases split s with ⟨_ | ⟨c, cs⟩, tail⟩
    · exact .tail l tail
    · exact .kept l c cs tail
  · have hother (l : Text) : e ≠ .keep l := fun h => hkeep ⟨l, h⟩
    rw [split.eq_3 e s hother]
    rcases split s with ⟨_ | ⟨⟨_ | ⟨k, kept⟩, changed⟩, cs⟩, tail⟩
    · exact .first hother [] tail
    · exact .changed hother changed cs tail
    · exact .first hother (⟨k :: kept, changed⟩ :: cs) tail

theorem joined_split (s : Script) : joined (split s).1 (split s).2 = s := by
  induction s with
  | nil => rfl
  | cons e s ih =>
    have hstep := prepends_split e s
    generalize split s = p, split (e :: s) = q at hstep ih ⊢
    rw [← ih]
    cases hstep with
    | tail => simp [joined]
    | kept => simp [joined, whole]
    | changed => simp [joined, whole]
    | first => simp [joined, whole]

end Change

namespace Hunk

/-- The script is these hunks with kept lines before, between and after them, when so many old and
new lines stand before it. -/
def Spread : (oldBefore newBefore : Nat) → List Hunk → Script → Prop
  | _, _, [], s => ∃ ls : List Text, s = ls.map .keep
  | o, n, h :: hs, s => ∃ (ls : List Text) (rest : Script),
      s = ls.map .keep ++ (h.script ++ rest) ∧
      h.oldBefore = o + ls.length ∧ h.newBefore = n + ls.length ∧
      Spread (h.oldBefore + h.oldCount) (h.newBefore + h.newCount) hs rest

@[simp] theorem oldCount_extend (h : Hunk) (s : Script) :
    (h.extend s).oldCount = h.oldCount + s.old.length := by
  simp [oldCount, extend]

@[simp] theorem newCount_extend (h : Hunk) (s : Script) :
    (h.extend s).newCount = h.newCount + s.new.length := by
  simp [newCount, extend]

@[simp] theorem old_whole (c : Change) : c.whole.old = c.kept ++ c.changed.old := by
  rw [Change.whole, old_append, old_map_keep]

@[simp] theorem new_whole (c : Change) : c.whole.new = c.kept ++ c.changed.new := by
  rw [Change.whole, new_append, new_map_keep]

theorem start_counts (context o n : Nat) (c : Change) :
    (start context o n c).oldBefore + (start context o n c).oldCount = o + c.whole.old.length ∧
      (start context o n c).newBefore + (start context o n c).newCount =
        n + c.whole.new.length := by
  have hkept := Nat.sub_le c.kept.length context
  simp only [start, oldCount, newCount, old_append, new_append, old_map_keep, new_map_keep,
    old_whole, new_whole, List.length_append, List.length_drop]
  omega

theorem spread_build (context : Nat) (tail : List Text) (cs : List Change) {o n : Nat}
    {ls : List Text} {current : Hunk} (hold : current.oldBefore = o + ls.length)
    (hnew : current.newBefore = n + ls.length) :
    Spread o n
      (build context (current.oldBefore + current.oldCount) (current.newBefore + current.newCount)
        current tail cs)
      (ls.map .keep ++ (current.script ++ Change.joined cs tail)) := by
  induction cs generalizing o n ls current with
  | nil =>
    refine ⟨ls, (tail.drop context).map .keep, ?_, hold, hnew, _, rfl⟩
    simp [Change.joined, extend]
  | cons c cs ih =>
    unfold build
    dsimp only
    split
    · have hnext := @ih o n ls (current.extend c.whole) hold hnew
      rw [oldCount_extend, newCount_extend, ← Nat.add_assoc, ← Nat.add_assoc] at hnext
      simpa only [Change.joined_cons, Change.whole, extend, List.append_assoc] using hnext
    · next hlong =>
      -- the kept lines are those at the end of one hunk, hidden ones and those of the next hunk
      let hidden := c.kept.length - context
      let between := (c.kept.drop context).take (hidden - context)
      have hbetween : between.length = hidden - context := by
        simp only [between, hidden, List.length_take, List.length_drop]
        omega
      have hkept : c.kept.drop context = between ++ c.kept.drop hidden := by
        have hdrop : (c.kept.drop context).drop (hidden - context) = c.kept.drop hidden := by
          rw [List.drop_drop]
          congr 1
          omega
        rw [← hdrop, List.take_append_drop]
      have hcounts := start_counts context (current.oldBefore + current.oldCount)
        (current.newBefore + current.newCount) c
      have htaken : (c.kept.take context).length = context := by
        rw [List.length_take]
        omega
      refine ⟨ls, (c.kept.drop context).map .keep ++ (c.changed ++ Change.joined cs tail), ?_,
        hold, hnew, ?_⟩
      · rw [Change.joined_cons, map_keep_split context c.kept]
        simp only [extend, List.append_assoc]
      · rw [oldCount_extend, newCount_extend, old_map_keep, new_map_keep, htaken, ← hcounts.1,
          ← hcounts.2, hkept, List.map_append, List.append_assoc,
          ← List.append_assoc ((c.kept.drop hidden).map Edit.keep)]
        apply ih <;> simp only [start, extend, hbetween] <;> omega

/-- The hunks of a script are spread over it. -/
theorem spread_ofScript (context : Nat) (s : Script) : Spread 0 0 (ofScript context s) s := by
  have hs := Change.joined_split s
  unfold ofScript
  split
  · next hsplit =>
    rw [hsplit] at hs
    exact ⟨_, hs.symm⟩
  · next c cs tail hsplit =>
    rw [hsplit, Change.joined_cons, map_keep_split (c.kept.length - context) c.kept,
      ← List.append_assoc ((c.kept.drop _).map Edit.keep)] at hs
    have hcounts := start_counts context 0 0 c
    rw [Nat.zero_add, Nat.zero_add] at hcounts
    rw [← hcounts.1, ← hcounts.2, ← hs]
    apply spread_build <;> simp [start]

theorem Spread.mem {o n : Nat} {hs : List Hunk} {s : Script} (hspread : Spread o n hs s)
    {h : Hunk} (hh : h ∈ hs) {e : Edit} (he : e ∈ h.script) : e ∈ s := by
  induction hs generalizing o n s with
  | nil => cases hh
  | cons g hs ih =>
    obtain ⟨ls, rest, rfl, -, -, hrest⟩ := hspread
    rcases List.mem_cons.mp hh with rfl | hh
    · simp [he]
    · simp [ih hrest hh]

theorem Spread.old_eq_new {o n : Nat} {s : Script} (h : Spread o n [] s) : s.old = s.new := by
  obtain ⟨ls, rfl⟩ := h
  rw [old_map_keep, new_map_keep]

end Hunk

namespace Unified

theorem spread_hunks (old new : Text) :
    Hunk.Spread 0 0 (hunks old new)
      (Script.shortest (Text.returnedLines old) (Text.returnedLines new)) :=
  Hunk.spread_ofScript contextLines _

theorem exists_diff {old new : Text} (h : old ≠ new) (path : Text) :
    ∃ t, diff? path old new = some t := by
  unfold diff?
  split
  · next hnone =>
    have hspread := spread_hunks old new
    have hleads := Script.leads_shortest (Text.returnedLines old) (Text.returnedLines new)
    rw [hnone] at hspread
    have hlines := hspread.old_eq_new
    rw [hleads.1, hleads.2] at hlines
    exact absurd (Text.returnedLines_injective hlines) h
  · exact ⟨_, rfl⟩

end Unified
end VersionDrift
