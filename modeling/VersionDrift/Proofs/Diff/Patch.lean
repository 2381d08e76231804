import VersionDrift.Proofs.Diff.Hunk

/-!
# Applying a diff

A diff is read back line by line: two lines with names, and then hunks. A note takes
the end off the line before it. The hunks apply to a list of lines when each finds the
lines that it keeps or removes at the place that it states; that is so exactly when they
are spread over a script that starts from these lines.
-/

set_option autoImplicit false

namespace VersionDrift.Patch

def remark : Text := "\\ No newline at end of file".toList

def note : Text := remark ++ ['\n']

/-- The lines without notes; a line before a note loses its end. -/
def unnoted : List Text → List Text
  | [] => []
  | [l] => [l]
  | l :: k :: ls =>
    if k = note then (Text.dropLast? '\n' l).getD l :: unnoted ls else l :: unnoted (k :: ls)

def range? (t : Text) : Option (Nat × Nat) :=
  match Text.splitAt ',' t with
  | [start] => (Decimal.read? 10 start).map fun n => (n - 1, 1)
  | [start, count] =>
    (Decimal.read? 10 start).bind fun n => (Decimal.read? 10 count).map fun k =>
      (if k = 0 then n else n - 1, k)
  | _ => none

def ranges? (line : Text) : Option ((Nat × Nat) × (Nat × Nat)) :=
  match Text.splitAt ' ' line with
  | [['@', '@'], '-' :: old, '+' :: new, ['@', '@', '\n']] =>
    (range? old).bind fun o => (range? new).map fun n => (o, n)
  | _ => none

def edit? : Text → Option Edit
  | ' ' :: l => some (.keep l)
  | '-' :: l => some (.remove l)
  | '+' :: l => some (.add l)
  | _ => none

/-- The edits that lines begin with, and the hunks after them; ranges have to count right. -/
def hunks? : List Text → Option (Script × List Hunk)
  | [] => some ([], [])
  | l :: ls => (hunks? ls).bind fun (s, hs) =>
    match edit? l with
    | some e => some (e :: s, hs)
    | none => (ranges? l).bind fun (old, new) =>
      let h : Hunk := ⟨old.1, new.1, s⟩
      if (h.oldCount, h.newCount) = (old.2, new.2) then some ([], h :: hs) else none

def ofText (t : Text) : Option (List Hunk) :=
  match Text.returnedLines t with
  | old :: new :: ls =>
    if Text.startsWith "--- ".toList old && Text.startsWith "+++ ".toList new then
      match hunks? (unnoted ls) with
      | some ([], hs) => some hs
      | _ => none
    else none
  | _ => none

/-- The lines after the hunks, when so many old and new lines stand before them. -/
def replay (oldBefore newBefore : Nat) : List Hunk → List Text → Option (List Text)
  | [], ls => some ls
  | h :: hs, ls =>
    let gap := h.oldBefore - oldBefore
    if oldBefore ≤ h.oldBefore ∧ gap ≤ ls.length ∧ h.newBefore = newBefore + gap ∧
        h.script.old <+: ls.drop gap then
      (replay (h.oldBefore + h.oldCount) (h.newBefore + h.newCount) hs
        ((ls.drop gap).drop h.oldCount)).map fun out => ls.take gap ++ (h.script.new ++ out)
    else none

/-- The text that a diff turns the text `old` into. -/
def apply (t old : Text) : Option Text :=
  (ofText t).bind fun hs => (replay 0 0 hs (Text.returnedLines old)).map List.flatten

/-- The hunks that are spread over a script take its old lines to its new ones, and nothing else
does. -/
theorem replay_eq_some_iff {o n : Nat} {hs : List Hunk} {ls out : List Text} :
    replay o n hs ls = some out ↔ ∃ s, Hunk.Spread o n hs s ∧ Script.Leads ls out s := by
  induction hs generalizing o n ls out with
  | nil =>
    constructor
    · rintro ⟨⟩
      exact ⟨_, ⟨ls, rfl⟩, Script.leads_map_keep ls⟩
    · rintro ⟨s, ⟨kept, rfl⟩, rfl, rfl⟩
      rw [Script.old_map_keep, Script.new_map_keep]
      rfl
  | cons h hs ih =>
    constructor
    · intro hreplay
      unfold replay at hreplay
      dsimp only at hreplay
      split at hreplay
      · next hfits =>
        obtain ⟨hold, hgap, hnew, rest, hrest⟩ := hfits
        obtain ⟨out', hout', rfl⟩ := Option.map_eq_some_iff.mp hreplay
        rw [← hrest, Hunk.oldCount, List.drop_left] at hout'
        obtain ⟨s, hs, hleads⟩ := ih.mp hout'
        have htake : (ls.take (h.oldBefore - o)).length = h.oldBefore - o := by
          rw [List.length_take]
          omega
        refine ⟨(ls.take (h.oldBefore - o)).map .keep ++ (h.script ++ s),
          ⟨_, _, rfl, by omega, by omega, hs⟩, ?_⟩
        have hscript : Script.Leads h.script.old h.script.new h.script := ⟨rfl, rfl⟩
        have hall := (Script.leads_map_keep (ls.take (h.oldBefore - o))).append
          (hscript.append hleads)
        rwa [hrest, List.take_append_drop] at hall
      · cases hreplay
    · rintro ⟨s, ⟨kept, rest, rfl, hold, hnew, hspread⟩, rfl, rfl⟩
      have hrest := ih.mpr ⟨rest, hspread, rfl, rfl⟩
      have hgap : h.oldBefore - o = kept.length := by omega
      simp only [Script.old_append, Script.new_append, Script.old_map_keep, Script.new_map_keep]
      rw [replay, hgap, List.drop_left, List.take_left, Hunk.oldCount, List.drop_left]
      rw [Hunk.oldCount] at hrest
      rw [hrest, if_pos ⟨by omega, by simp, by omega, List.prefix_append _ _⟩]
      rfl

end VersionDrift.Patch
