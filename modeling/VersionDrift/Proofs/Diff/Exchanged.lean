import VersionDrift.Proofs.Diff.Reversed

/-!
# One line in place of another

Between two lists that differ in one line the shortest script removes the one line and adds
the other. The diff shows the two next to each other, with the lines around them, unless
the line below is the added one already: then that one is kept, and the added line stands
further down.
-/

set_option autoImplicit false

namespace VersionDrift

variable {x y : Text} {above below : List Text}

namespace Script

theorem commonHead_append_append (h : x ≠ y) (ls xs ys : List Text) :
    commonHead (ls ++ x :: xs) (ls ++ y :: ys) = (ls, x :: xs, y :: ys) := by
  induction ls with
  | nil => exact if_neg h
  | cons l ls ih => rw [List.cons_append, List.cons_append, commonHead, if_pos rfl, ih]

theorem settle_map_keep_append (ls : List Text) (s : Script) :
    settle [] (ls.map .keep ++ s) = ls.map .keep ++ settle [] s := by
  induction ls with
  | nil => rfl
  | cons l ls ih => rw [List.map_cons, List.cons_append, settle, ih]; rfl

theorem settle_singleton (y : Text) (ls : List Text) : settle [y] (ls.map .keep) =
    (ls.takeWhile (y = ·)).map .keep ++ .add y :: (ls.dropWhile (y = ·)).map .keep := by
  induction ls with
  | nil => rfl
  | cons l ls ih =>
    rw [List.map_cons, settle, List.nil_append]
    by_cases h : y = l
    · subst h
      rw [if_pos rfl, ih, List.takeWhile_cons_of_pos (by simp),
        List.dropWhile_cons_of_pos (by simp)]
      rfl
    · rw [if_neg h, settle_map_keep, List.takeWhile_cons_of_neg (by simpa using h),
        List.dropWhile_cons_of_neg (by simpa using h)]
      rfl

theorem settle_eq_add_iff {y : Text} {ls : List Text} {s : Script} :
    settle [y] (ls.map .keep) = .add y :: s ↔ ls.head? ≠ some y ∧ s = ls.map .keep := by
  rw [settle_singleton]
  cases ls with
  | nil => simp [eq_comm]
  | cons l ls =>
    by_cases h : y = l
    · simp [h]
    · simp [h, eq_comm]

/-- What the shortest script does when one line is another. -/
theorem shortest_exchange (h : x ≠ y) (above below : List Text) :
    shortest (above ++ x :: below) (above ++ y :: below) =
      above.map .keep ++ .remove x :: settle [y] (below.map .keep) := by
  have hhead := commonHead_append_append h above below below
  have htail := commonHead_append_append h below.reverse [] []
  have htable : ((table [y] [x]).headD .empty).script = [.remove x, .add y] := by
    simp [table, rowAbove, lastRow, h, Cell.remove, Cell.add, Cell.empty]
  rw [shortest, hhead]
  dsimp only
  rw [List.reverse_cons, List.reverse_cons, htail]
  dsimp only
  rw [List.reverse_reverse, List.reverse_singleton, List.reverse_singleton, htable,
    List.append_assoc, settle_map_keep_append]
  rfl

theorem map_keep_append_remove_inj {ls ls' : List Text} {x x' : Text} {s s' : Script}
    (h : ls.map .keep ++ .remove x :: s = ls'.map .keep ++ .remove x' :: s') :
    ls = ls' ∧ x = x' ∧ s = s' := by
  induction ls generalizing ls' with
  | nil =>
    cases ls' with
    | nil =>
      obtain ⟨hx, hs⟩ := List.cons.inj h
      exact ⟨rfl, Edit.remove.inj hx, hs⟩
    | cons l' ls' => cases (List.cons.inj h).1
  | cons l ls ih =>
    cases ls' with
    | nil => cases (List.cons.inj h).1
    | cons l' ls' =>
      obtain ⟨hl, hrest⟩ := List.cons.inj h
      obtain ⟨rfl, hx, hs⟩ := ih hrest
      exact ⟨by rw [Edit.keep.inj hl], hx, hs⟩

end Script

namespace Change

theorem split_map_keep_append (ls : List Text) {s : Script} {c : Change} {cs : List Change}
    {tail : List Text} (h : split s = (c :: cs, tail)) :
    split (ls.map .keep ++ s) = (⟨ls ++ c.kept, c.changed⟩ :: cs, tail) := by
  induction ls with
  | nil => exact h
  | cons l ls ih => rw [List.map_cons, List.cons_append, split, ih]; rfl

theorem split_exchange (x y : Text) (above below : List Text) :
    split (above.map .keep ++ .remove x :: .add y :: below.map .keep) =
      ([⟨above, [.remove x, .add y]⟩], below) := by
  have hpair : split (.remove x :: .add y :: below.map .keep) =
      ([⟨[], [.remove x, .add y]⟩], below) := by
    rw [split, split, split_map_keep]
    · simp
    · simp
  rw [split_map_keep_append above hpair, List.append_nil]

end Change

namespace Hunk

/-- A line in place of another one, with at most `context` lines on either side. -/
def exchange (context : Nat) (above below : List Text) (x y : Text) : Hunk :=
  let hidden := above.length - context
  ⟨hidden, hidden, (above.drop hidden).map .keep ++ .remove x :: .add y ::
    (below.take context).map .keep⟩

theorem ofScript_exchange (context : Nat) (x y : Text) (above below : List Text) :
    ofScript context (above.map .keep ++ .remove x :: .add y :: below.map .keep) =
      [exchange context above below x y] := by
  rw [ofScript, Change.split_exchange]
  simp [build, start, extend, exchange]

end Hunk

namespace Patch

theorem eq_of_render_eq {path : Text} {hs hs' : List Hunk}
    (hlines : ∀ h ∈ hs, ∀ e ∈ h.script, Text.IsLine e.line)
    (hlines' : ∀ h ∈ hs', ∀ e ∈ h.script, Text.IsLine e.line)
    (h : Unified.render path hs = Unified.render path hs') : hs = hs' := by
  have hbody : (hs.map Unified.hunk).flatten = (hs'.map Unified.hunk).flatten := by
    have hnames := List.append_cancel_left h
    exact (List.cons.inj (List.append_cancel_left (List.cons.inj hnames).2)).2
  have hread := (hunks?_hunks hlines).2
  rw [hbody, (hunks?_hunks hlines').2] at hread
  exact (Prod.mk.inj (Option.some.inj hread)).2.symm

/-- The diff has one hunk, where the line `y` stands in place of the line `x`, with at most two of
the lines above and at most two of the lines below. -/
def ShowsExchange (path : Text) (above below : List Text) (x y t : Text) : Prop :=
  ∃ hidden lead trail rest : List Text, above = hidden ++ lead ∧ below = trail ++ rest ∧
    lead.length ≤ 2 ∧ trail.length ≤ 2 ∧
    t = Unified.render path [⟨hidden.length, hidden.length,
      lead.map .keep ++ .remove x :: .add y :: trail.map .keep⟩]

/-- A change of one line is shown as that, unless the line below it is the new one already. -/
theorem showsExchange_iff {path old new t : Text}
    (hold : Text.returnedLines old = above ++ x :: below)
    (hnew : Text.returnedLines new = above ++ y :: below) (hne : x ≠ y)
    (ht : Unified.diff? path old new = some t) :
    ShowsExchange path above below x y t ↔ below.head? ≠ some y := by
  have hscript : Script.shortest (Text.returnedLines old) (Text.returnedLines new) =
      above.map .keep ++ .remove x :: Script.settle [y] (below.map .keep) := by
    rw [hold, hnew, Script.shortest_exchange hne]
  constructor
  · rintro ⟨hidden, lead, trail, rest, rfl, rfl, -, -, hshown⟩ hhead
    have hmem (e : Edit) (he : e ∈ lead.map .keep ++ .remove x :: .add y :: trail.map .keep) :
        Text.IsLine e.line := by
      rcases Script.mem_old_or_new he with hline | hline
      · rw [Script.old_append, Script.old, Script.old, Script.old_map_keep,
          Script.old_map_keep] at hline
        exact Text.isLine_of_mem_returnedLines (t := old) (by rw [hold]; grind)
      · rw [Script.new_append, Script.new, Script.new, Script.new_map_keep,
          Script.new_map_keep] at hline
        exact Text.isLine_of_mem_returnedLines (t := new) (by rw [hnew]; grind)
    have hhunks := eq_of_render_eq (isLine_of_hunks old new) (by simpa using hmem)
      ((Unified.diff?_eq_some ht).symm.trans hshown)
    have hspread := Unified.spread_hunks old new
    rw [hhunks, hscript] at hspread
    obtain ⟨ls, _, hcut, -, -, ls', rfl⟩ := hspread
    -- in the hunk an added line comes next, in the script one that is kept
    rw [List.append_assoc, ← List.append_assoc (ls.map _), ← List.map_append] at hcut
    obtain ⟨-, -, hnext⟩ := Script.map_keep_append_remove_inj hcut
    exact (Script.settle_eq_add_iff.mp hnext).1 hhead
  · intro hhead
    have hsettled := Script.settle_eq_add_iff.mpr ⟨hhead, rfl⟩
    refine ⟨above.take (above.length - 2), above.drop (above.length - 2), below.take 2,
      below.drop 2, (List.take_append_drop _ _).symm, (List.take_append_drop _ _).symm, ?_,
      List.length_take_le _ _, ?_⟩
    · rw [List.length_drop]
      omega
    · have hlength : (above.take (above.length - 2)).length = above.length - 2 := by
        rw [List.length_take]
        omega
      rw [Unified.diff?_eq_some ht, Unified.hunks, hscript, hsettled, Hunk.ofScript_exchange,
        hlength]
      rfl

end Patch
end VersionDrift
