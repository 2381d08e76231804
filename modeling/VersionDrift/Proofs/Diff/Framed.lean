import VersionDrift.Proofs.Diff.Hunk

/-!
# The frame of a hunk

A hunk begins and ends with few kept lines; between them stands a part that begins and
ends with changes. Two hunks are never adjacent: the lines kept between them are more
than the two hunks show.
-/

set_option autoImplicit false

namespace VersionDrift

def Edit.isKept : Edit → Bool
  | .keep _ => true
  | _ => false

theorem Edit.isKept_eq_false {e : Edit} (h : ∀ l, e ≠ .keep l) : e.isKept = false := by
  cases e with
  | keep l => exact absurd rfl (h l)
  | remove => rfl
  | add => rfl

def Script.IsChange (s : Script) : Prop :=
  (∃ e ∈ s.head?, e.isKept = false) ∧ ∃ e ∈ s.getLast?, e.isKept = false

theorem Script.IsChange.append {s t u : Script} (hs : s.IsChange) (hu : u.IsChange) :
    Script.IsChange (s ++ (t ++ u)) := by
  obtain ⟨⟨first, hfirst, hchanges⟩, -⟩ := hs
  obtain ⟨-, last, hlast, hchanges'⟩ := hu
  refine ⟨⟨first, ?_, hchanges⟩, last, ?_, hchanges'⟩
  · rw [Option.mem_def] at hfirst
    simp [List.head?_append, hfirst]
  · rw [Option.mem_def] at hlast
    simp [List.getLast?_append, hlast]

namespace Change

/-- A change has lines that are not kept, and no others after its kept ones. -/
def IsProper (c : Change) : Prop := c.changed ≠ [] ∧ ∀ e ∈ c.changed, e.isKept = false

theorem IsProper.isChange {c : Change} (h : c.IsProper) : c.changed.IsChange :=
  ⟨⟨_, List.head?_eq_some_head h.1, h.2 _ (List.head_mem h.1)⟩,
    ⟨_, List.getLast?_eq_some_getLast h.1, h.2 _ (List.getLast_mem h.1)⟩⟩

theorem isProper_split (s : Script) : ∀ c ∈ (split s).1, c.IsProper := by
  induction s with
  | nil => simp [split]
  | cons e s ih =>
    have hstep := prepends_split e s
    generalize split s = p, split (e :: s) = q at hstep ih ⊢
    cases hstep with
    | tail => exact ih
    | kept l c cs tail =>
      obtain ⟨hc, hcs⟩ := List.forall_mem_cons.mp ih
      exact List.forall_mem_cons.mpr ⟨hc, hcs⟩
    | changed hother changed cs tail =>
      obtain ⟨⟨-, hchanged⟩, hcs⟩ := List.forall_mem_cons.mp ih
      exact List.forall_mem_cons.mpr ⟨⟨List.cons_ne_nil _ _,
        List.forall_mem_cons.mpr ⟨Edit.isKept_eq_false hother, hchanged⟩⟩, hcs⟩
    | first hother cs tail =>
      exact List.forall_mem_cons.mpr ⟨⟨List.cons_ne_nil _ _,
        List.forall_mem_singleton.mpr (Edit.isKept_eq_false hother)⟩, ih⟩

@[simp] theorem split_map_keep (ls : List Text) : split (ls.map .keep) = ([], ls) := by
  induction ls with
  | nil => rfl
  | cons l ls ih => rw [List.map_cons, split, ih]

end Change

namespace Hunk

/-- At most `context` kept lines, changes, and again at most `context` kept lines. -/
def IsFramed (context : Nat) (h : Hunk) : Prop :=
  ∃ (lead trail : List Text) (middle : Script),
    h.script = lead.map .keep ++ (middle ++ trail.map .keep) ∧
      lead.length ≤ context ∧ trail.length ≤ context ∧ middle.IsChange

/-- The hunk ends before the other one begins, and lines that neither shows stand between them. -/
def Precedes (g h : Hunk) : Prop :=
  g.oldBefore + g.oldCount < h.oldBefore ∧ g.newBefore + g.newCount < h.newBefore

def IsOpen (context : Nat) (h : Hunk) : Prop :=
  ∃ (lead : List Text) (middle : Script),
    h.script = lead.map .keep ++ middle ∧ lead.length ≤ context ∧ middle.IsChange

theorem IsOpen.close {context : Nat} {h : Hunk} (hopen : h.IsOpen context) {trail : List Text}
    (htrail : trail.length ≤ context) : (h.extend (trail.map .keep)).IsFramed context := by
  obtain ⟨lead, middle, hscript, hlead, hchange⟩ := hopen
  refine ⟨lead, trail, middle, ?_, hlead, htrail, hchange⟩
  rw [extend, hscript, List.append_assoc]

theorem IsOpen.extend {context : Nat} {h : Hunk} (hopen : h.IsOpen context) {c : Change}
    (hc : c.IsProper) : (h.extend c.whole).IsOpen context := by
  obtain ⟨lead, middle, hscript, hlead, hchange⟩ := hopen
  refine ⟨lead, middle ++ (c.kept.map .keep ++ c.changed), ?_, hlead, hchange.append hc.isChange⟩
  rw [Hunk.extend, hscript, List.append_assoc, Change.whole]

theorem isOpen_start (context o n : Nat) {c : Change} (hc : c.IsProper) :
    (start context o n c).IsOpen context := by
  refine ⟨_, _, rfl, ?_, hc.isChange⟩
  rw [List.length_drop]
  omega

variable {context : Nat} {tail : List Text} {cs : List Change}

theorem isFramed_build (hcs : ∀ c ∈ cs, c.IsProper) {o n : Nat} {current : Hunk}
    (hopen : current.IsOpen context) :
    ∀ h ∈ build context o n current tail cs, h.IsFramed context := by
  induction cs generalizing o n current with
  | nil =>
    intro h hh
    rw [List.mem_singleton.mp hh]
    exact hopen.close (List.length_take_le _ _)
  | cons c cs ih =>
    obtain ⟨hc, hcs⟩ := List.forall_mem_cons.mp hcs
    unfold build
    dsimp only
    split
    · exact ih hcs (hopen.extend hc)
    · exact List.forall_mem_cons.mpr
        ⟨hopen.close (List.length_take_le _ _), ih hcs (isOpen_start context o n hc)⟩

theorem before_build {o n : Nat} {current : Hunk} (hold : current.oldBefore ≤ o)
    (hnew : current.newBefore ≤ n) : ∀ h ∈ build context o n current tail cs,
      current.oldBefore ≤ h.oldBefore ∧ current.newBefore ≤ h.newBefore := by
  induction cs generalizing o n current with
  | nil =>
    intro h hh
    rw [List.mem_singleton.mp hh]
    exact ⟨Nat.le_refl _, Nat.le_refl _⟩
  | cons c cs ih =>
    unfold build
    dsimp only
    split
    · apply ih <;> simp only [extend] <;> omega
    · refine List.forall_mem_cons.mpr ⟨⟨Nat.le_refl _, Nat.le_refl _⟩, fun h hh => ?_⟩
      have hcounts := start_counts context o n c
      obtain ⟨hfrom, hfrom'⟩ := ih (by omega) (by omega) h hh
      simp only [start] at hfrom hfrom'
      omega

theorem pairwise_build {current : Hunk} :
    (build context (current.oldBefore + current.oldCount) (current.newBefore + current.newCount)
      current tail cs).Pairwise Precedes := by
  induction cs generalizing current with
  | nil => exact List.pairwise_singleton _ _
  | cons c cs ih =>
    have hnext := start_counts context (current.oldBefore + current.oldCount)
      (current.newBefore + current.newCount) c
    unfold build
    dsimp only
    split
    · have hwhole := @ih (current.extend c.whole)
      rw [oldCount_extend, newCount_extend, ← Nat.add_assoc, ← Nat.add_assoc] at hwhole
      exact hwhole
    · next hlong =>
      have hrest := @ih (start context (current.oldBefore + current.oldCount)
        (current.newBefore + current.newCount) c)
      rw [hnext.1, hnext.2] at hrest
      refine List.pairwise_cons.mpr ⟨fun h hh => ?_, hrest⟩
      obtain ⟨hfrom, hfrom'⟩ := before_build (by omega) (by omega) h hh
      have htaken : (c.kept.take context).length = context := by
        rw [List.length_take]
        omega
      rw [Precedes, oldCount_extend, newCount_extend, Script.old_map_keep, Script.new_map_keep,
        htaken]
      simp only [start, extend] at hfrom hfrom' ⊢
      omega

/-- The hunks of a script stand in order, with hidden lines between them. -/
theorem pairwise_ofScript (context : Nat) (s : Script) :
    (ofScript context s).Pairwise Precedes := by
  unfold ofScript
  split
  · exact List.Pairwise.nil
  · next c cs tail _ =>
    have hcounts := start_counts context 0 0 c
    rw [Nat.zero_add, Nat.zero_add] at hcounts
    rw [← hcounts.1, ← hcounts.2]
    exact pairwise_build

theorem isFramed_ofScript (context : Nat) (s : Script) :
    ∀ h ∈ ofScript context s, h.IsFramed context := by
  have hproper := Change.isProper_split s
  unfold ofScript
  split
  · simp
  · next c cs tail hsplit =>
    rw [hsplit] at hproper
    obtain ⟨hc, hcs⟩ := List.forall_mem_cons.mp hproper
    exact isFramed_build hcs (isOpen_start context 0 0 hc)

theorem ofScript_eq_nil_iff {context : Nat} {s : Script} :
    ofScript context s = [] ↔ ∃ ls : List Text, s = ls.map .keep := by
  constructor
  · intro hnone
    have hspread := spread_ofScript context s
    rw [hnone] at hspread
    exact hspread
  · rintro ⟨ls, rfl⟩
    unfold ofScript
    rw [Change.split_map_keep]

end Hunk
end VersionDrift
