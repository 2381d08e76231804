import VersionDrift.Diff.Script

/-!
# Scripts between two lists of lines

A script leads from the lines that it keeps or removes to the lines that it keeps or
adds. Every cell of the table holds a script between its two endings, so the shortest
script leads from the old lines to the new ones.
-/

set_option autoImplicit false

namespace VersionDrift

def Edit.line : Edit → Text
  | .keep l => l
  | .remove l => l
  | .add l => l

namespace Script

@[simp] theorem old_append (s t : Script) : (s ++ t).old = s.old ++ t.old := by
  induction s with
  | nil => rfl
  | cons e s ih => cases e <;> simp [old, ih]

@[simp] theorem new_append (s t : Script) : (s ++ t).new = s.new ++ t.new := by
  induction s with
  | nil => rfl
  | cons e s ih => cases e <;> simp [new, ih]

@[simp] theorem old_map_keep (ls : List Text) : old (ls.map .keep) = ls := by
  induction ls with
  | nil => rfl
  | cons l ls ih => exact congrArg (l :: ·) ih

@[simp] theorem new_map_keep (ls : List Text) : new (ls.map .keep) = ls := by
  induction ls with
  | nil => rfl
  | cons l ls ih => exact congrArg (l :: ·) ih

theorem mem_old_or_new {e : Edit} {s : Script} (h : e ∈ s) :
    e.line ∈ s.old ∨ e.line ∈ s.new := by
  induction s with
  | nil => cases h
  | cons d s ih =>
    rcases List.mem_cons.mp h with rfl | htail
    · cases e <;> simp [old, new, Edit.line]
    · rcases ih htail with hmem | hmem <;> cases d <;> simp [old, new, hmem]

theorem map_keep_split (k : Nat) (ls : List Text) (s : Script) :
    ls.map .keep ++ s = (ls.take k).map .keep ++ ((ls.drop k).map .keep ++ s) := by
  rw [← List.append_assoc, ← List.map_append, List.take_append_drop]

/-- The script turns the lines `xs` into the lines `ys`. -/
def Leads (xs ys : List Text) (s : Script) : Prop := s.old = xs ∧ s.new = ys

theorem Leads.append {xs ys xs' ys' : List Text} {s t : Script} (hs : Leads xs ys s)
    (ht : Leads xs' ys' t) : Leads (xs ++ xs') (ys ++ ys') (s ++ t) := by
  rw [Leads, old_append, new_append, hs.1, hs.2, ht.1, ht.2]
  exact ⟨rfl, rfl⟩

theorem leads_map_keep (ls : List Text) : Leads ls ls (ls.map .keep) :=
  ⟨old_map_keep ls, new_map_keep ls⟩

/-- A row of the table: its cells lead from the lines `xs` to each ending of the new lines. -/
def Row (xs : List Text) : List Text → List Cell → Prop
  | [], row => ∃ c, row = [c] ∧ Leads xs [] c.script
  | y :: ys, row => ∃ c rest, row = c :: rest ∧ Leads xs (y :: ys) c.script ∧ Row xs ys rest

variable {x : Text} {xs ys : List Text} {row below : List Cell}

theorem Row.head (h : Row xs ys row) : Leads xs ys (row.headD .empty).script := by
  cases ys with
  | nil =>
    obtain ⟨c, rfl, hc⟩ := h
    exact hc
  | cons y ys =>
    obtain ⟨c, rest, rfl, hc, -⟩ := h
    exact hc

theorem row_lastRow (ys : List Text) : Row [] ys (lastRow ys) := by
  induction ys with
  | nil => exact ⟨.empty, rfl, rfl, rfl⟩
  | cons y ys ih => exact ⟨_, _, rfl, ⟨ih.head.1, congrArg (y :: ·) ih.head.2⟩, ih⟩

theorem Row.above (h : Row xs ys below) : Row (x :: xs) ys (rowAbove x ys below) := by
  induction ys generalizing below with
  | nil => exact ⟨_, rfl, congrArg (x :: ·) h.head.1, h.head.2⟩
  | cons y ys ih =>
    have hremoved := h.head
    obtain ⟨c, rest, rfl, -, hrest⟩ := h
    have hrow := ih hrest
    have hadded := hrow.head
    refine ⟨_, _, rfl, ?_, hrow⟩
    split
    · next heq => exact ⟨congrArg (x :: ·) hrest.head.1, heq ▸ congrArg (x :: ·) hrest.head.2⟩
    · split
      · exact ⟨congrArg (x :: ·) hremoved.1, hremoved.2⟩
      · exact ⟨hadded.1, congrArg (y :: ·) hadded.2⟩

theorem row_table (xs ys : List Text) : Row xs ys (table ys xs) := by
  induction xs with
  | nil => exact row_lastRow ys
  | cons x xs ih => exact ih.above

theorem commonHead_append (xs ys : List Text) :
    xs = (commonHead xs ys).1 ++ (commonHead xs ys).2.1 ∧
      ys = (commonHead xs ys).1 ++ (commonHead xs ys).2.2 := by
  induction xs generalizing ys with
  | nil => exact ⟨rfl, rfl⟩
  | cons x xs ih =>
    cases ys with
    | nil => exact ⟨rfl, rfl⟩
    | cons y ys =>
      unfold commonHead
      split
      · next heq =>
        subst heq
        exact ⟨congrArg (x :: ·) (ih ys).1, congrArg (x :: ·) (ih ys).2⟩
      · exact ⟨rfl, rfl⟩

theorem leads_map_add (ls : List Text) : Leads [] ls (ls.map .add) := by
  induction ls with
  | nil => exact ⟨rfl, rfl⟩
  | cons l ls ih => exact ⟨ih.1, congrArg (l :: ·) ih.2⟩

@[simp] theorem settle_map_keep (ls : List Text) : settle [] (ls.map .keep) = ls.map .keep := by
  induction ls with
  | nil => rfl
  | cons l ls ih => rw [List.map_cons, settle, ih]

theorem leads_settle (added : List Text) (s : Script) :
    Leads s.old (added ++ s.new) (settle added s) := by
  fun_induction settle added s with
  | case1 added => rw [new, List.append_nil]; exact leads_map_add added
  | case2 added l s ih => rwa [List.append_assoc] at ih
  | case3 added l s ih => exact ⟨congrArg (l :: ·) ih.1, ih.2⟩
  | case4 l s ih => exact ⟨congrArg (l :: ·) ih.1, congrArg (l :: ·) ih.2⟩
  | case5 added l s ih =>
    rw [List.append_assoc] at ih
    exact ⟨congrArg (l :: ·) ih.1, congrArg (l :: ·) ih.2⟩
  | case6 a added l s hne ih =>
    exact (leads_map_add (a :: added)).append
      ⟨congrArg (l :: ·) ih.1, congrArg (l :: ·) ih.2⟩

/-- The shortest script turns the old lines into the new ones. -/
theorem leads_shortest (xs ys : List Text) : Leads xs ys (shortest xs ys) := by
  obtain ⟨hxs, hys⟩ := commonHead_append xs ys
  unfold shortest
  generalize commonHead xs ys = head at hxs hys ⊢
  obtain ⟨head, xs₁, ys₁⟩ := head
  obtain ⟨hxs₁, hys₁⟩ := commonHead_append xs₁.reverse ys₁.reverse
  dsimp only at hxs hys ⊢
  generalize commonHead xs₁.reverse ys₁.reverse = tail at hxs₁ hys₁ ⊢
  obtain ⟨tail, xs₂, ys₂⟩ := tail
  dsimp only at hxs₁ hys₁ ⊢
  have hmiddle := (row_table xs₂.reverse ys₂.reverse).head
  have hall := ((leads_map_keep head).append hmiddle).append (leads_map_keep tail.reverse)
  have hx : xs₁ = xs₂.reverse ++ tail.reverse := by
    rw [← List.reverse_append, ← hxs₁, List.reverse_reverse]
  have hy : ys₁ = ys₂.reverse ++ tail.reverse := by
    rw [← List.reverse_append, ← hys₁, List.reverse_reverse]
  rw [List.append_assoc, List.append_assoc, ← hx, ← hy, ← hxs, ← hys] at hall
  have hsettled := leads_settle [] (head.map .keep ++
    ((table ys₂.reverse xs₂.reverse).headD .empty).script ++ tail.reverse.map .keep)
  rwa [hall.1, hall.2] at hsettled

end Script
end VersionDrift
