import VersionDrift.Text.Line

/-!
# Texts cut at a character

The pieces of a text have no separator in them, and put together again with one
between any two neighbours they are the text.
-/

set_option autoImplicit false

namespace VersionDrift.Text

variable {c : Char}

theorem splitAt_of_not_mem {t : Text} (h : c ∉ t) : splitAt c t = [t] := by
  induction t with
  | nil => rfl
  | cons d t ih =>
    simp only [List.mem_cons, not_or] at h
    simp [splitAt, Ne.symm h.1, ih h.2]

theorem splitAt_append {s : Text} (h : c ∉ s) (t : Text) :
    splitAt c (s ++ c :: t) = s :: splitAt c t := by
  induction s with
  | nil => simp [splitAt]
  | cons d s ih =>
    simp only [List.mem_cons, not_or] at h
    simp [splitAt, Ne.symm h.1, ih h.2]

theorem splitAt_ended {ls : List Text} (hls : ∀ l ∈ ls, c ∉ l) (t : Text) :
    splitAt c ((ls.map (· ++ [c])).flatten ++ t) = ls ++ splitAt c t := by
  induction ls with
  | nil => rfl
  | cons l ls ih =>
    obtain ⟨hl, hls⟩ := List.forall_mem_cons.mp hls
    rw [List.map_cons, List.flatten_cons, List.append_assoc, List.append_assoc,
      List.singleton_append, splitAt_append hl, ih hls]
    rfl

theorem splitAt_begun {s : Text} {ls : List Text} (hs : c ∉ s) (hls : ∀ l ∈ ls, c ∉ l) :
    splitAt c (s ++ (ls.map (c :: ·)).flatten) = s :: ls := by
  induction ls generalizing s with
  | nil => simp [splitAt_of_not_mem hs]
  | cons l ls ih =>
    obtain ⟨hl, hls⟩ := List.forall_mem_cons.mp hls
    rw [List.map_cons, List.flatten_cons, List.cons_append, splitAt_append hs, ih hl hls]

theorem splitAt_flatten (c : Char) (t : Text) :
    ((splitAt c t).map (c :: ·)).flatten = c :: t := by
  induction t with
  | nil => rfl
  | cons d t ih =>
    unfold splitAt
    split
    · next hd => rw [List.map_cons, List.flatten_cons, ih, hd]; rfl
    · cases hsplit : splitAt c t with
      | nil => simp [hsplit] at ih
      | cons piece pieces =>
        rw [hsplit, List.map_cons, List.flatten_cons] at ih
        exact congrArg (fun r => c :: d :: r) (List.cons.inj ih).2

theorem not_mem_of_mem_splitAt {t l : Text} (h : l ∈ splitAt c t) : c ∉ l := by
  induction t generalizing l with
  | nil =>
    obtain rfl := List.mem_singleton.mp h
    exact List.not_mem_nil
  | cons d t ih =>
    unfold splitAt at h
    split at h
    · rcases List.mem_cons.mp h with rfl | h
      · exact List.not_mem_nil
      · exact ih h
    · next hd =>
      split at h
      · obtain rfl := List.mem_singleton.mp h
        simpa using Ne.symm hd
      · next l' ls hsplit =>
        rw [hsplit] at ih
        rcases List.mem_cons.mp h with rfl | h
        · exact List.not_mem_cons_of_ne_of_not_mem (Ne.symm hd) (ih List.mem_cons_self)
        · exact ih (List.mem_cons_of_mem _ h)

@[simp] theorem joined_cons_cons (sep t u : Text) (ts : List Text) :
    joined sep (t :: u :: ts) = t ++ sep ++ joined sep (u :: ts) := rfl

theorem joined_cons (sep t : Text) (ts : List Text) :
    joined sep (t :: ts) = t ++ (ts.map (sep ++ ·)).flatten := by
  induction ts generalizing t with
  | nil => simp
  | cons u us ih => rw [joined_cons_cons, ih, List.map_cons, List.flatten_cons]; simp

theorem splitAt_ne_nil (c : Char) (t : Text) : splitAt c t ≠ [] := by
  intro hnil
  have hflatten := splitAt_flatten c t
  rw [hnil] at hflatten
  cases hflatten

theorem replaceChar_eq_joined (c : Char) (by_ t : Text) :
    replaceChar c by_ t = joined by_ (splitAt c t) := by
  induction t with
  | nil => rfl
  | cons d t ih =>
    obtain ⟨piece, pieces, hsplit⟩ := List.exists_cons_of_ne_nil (splitAt_ne_nil c t)
    rw [hsplit] at ih
    by_cases hd : d = c
    · rw [replaceChar, if_pos hd, splitAt, if_pos hd, hsplit, joined_cons_cons, ih]
      rfl
    · rw [replaceChar, if_neg hd, splitAt, if_neg hd, hsplit]
      dsimp only
      rw [ih, joined_cons, joined_cons]
      rfl

end VersionDrift.Text
