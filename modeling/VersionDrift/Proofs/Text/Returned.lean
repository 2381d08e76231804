import VersionDrift.Text.Line

/-!
# Lines that may end in a carriage return

Such a line is a body without ends of lines, and an ending or none. A body with its
ending is cut off the front of a text, unless the ending is a carriage return and the
text goes on with a line feed. Where no carriage return stands alone, the lines are those
that line feeds end.
-/

set_option autoImplicit false

namespace VersionDrift.Text

def Unbroken (t : Text) : Prop := ∀ c ∈ t, c ≠ '\n' ∧ c ≠ '\r'

-- named, since a decision over all characters would be found, too
instance (t : Text) : Decidable (Unbroken t) :=
  List.decidableBAll (fun c => c ≠ '\n' ∧ c ≠ '\r') t

inductive LineEnd where
  | lf
  | crlf
  | cr
deriving DecidableEq, Repr

def LineEnd.chars : LineEnd → Text
  | lf => ['\n']
  | crlf => ['\r', '\n']
  | cr => ['\r']

@[simp] theorem LineEnd.chars_lf : lf.chars = ['\n'] := rfl

@[simp] theorem LineEnd.chars_crlf : crlf.chars = ['\r', '\n'] := rfl

@[simp] theorem LineEnd.chars_cr : cr.chars = ['\r'] := rfl

inductive IsLine : Text → Prop
  | ended {body : Text} (h : Unbroken body) (e : LineEnd) : IsLine (body ++ e.chars)
  | unended {body : Text} (h : Unbroken body) : IsLine body

@[simp] theorem unbroken_nil : Unbroken [] := nofun

@[simp] theorem unbroken_cons {c : Char} {t : Text} :
    Unbroken (c :: t) ↔ (c ≠ '\n' ∧ c ≠ '\r') ∧ Unbroken t := List.forall_mem_cons

theorem Unbroken.append {s t : Text} (hs : Unbroken s) (ht : Unbroken t) : Unbroken (s ++ t) :=
  List.forall_mem_append.mpr ⟨hs, ht⟩

theorem Unbroken.getLast?_ne {t : Text} (h : Unbroken t) :
    t.getLast? ≠ some '\n' ∧ t.getLast? ≠ some '\r' :=
  ⟨fun hlast => (h _ (List.mem_of_getLast? hlast)).1 rfl,
    fun hlast => (h _ (List.mem_of_getLast? hlast)).2 rfl⟩

theorem returnedLines_ended {body t : Text} (hbody : Unbroken body) (e : LineEnd)
    (ht : e = .cr → t.head? ≠ some '\n') :
    returnedLines (body ++ e.chars ++ t) = (body ++ e.chars) :: returnedLines t := by
  induction body with
  | nil =>
    cases e with
    | lf => rfl
    | crlf => rfl
    | cr => simp [returnedLines, ht rfl]
  | cons c body ih =>
    obtain ⟨⟨hfeed, hreturn⟩, hbody⟩ := unbroken_cons.mp hbody
    rw [List.cons_append, List.cons_append, returnedLines, ih hbody]
    simp [hfeed, hreturn]

theorem isLine_cons {c : Char} (hfeed : c ≠ '\n') (hreturn : c ≠ '\r') {l : Text} (h : IsLine l) :
    IsLine (c :: l) := by
  cases h with
  | ended h e => exact .ended (unbroken_cons.mpr ⟨⟨hfeed, hreturn⟩, h⟩) e
  | unended h => exact .unended (unbroken_cons.mpr ⟨⟨hfeed, hreturn⟩, h⟩)

theorem isLine_of_mem_returnedLines {t l : Text} (h : l ∈ returnedLines t) : IsLine l := by
  induction t generalizing l with
  | nil => cases h
  | cons c t ih =>
    unfold returnedLines at h
    split at h
    · next hend =>
      rcases List.mem_cons.mp h with rfl | h
      · by_cases hfeed : c = '\n'
        · subst hfeed
          exact .ended unbroken_nil .lf
        · obtain ⟨rfl, -⟩ : c = '\r' ∧ t.head? ≠ some '\n' := by simpa [hfeed] using hend
          exact .ended unbroken_nil .cr
      · exact ih h
    · next hnotEnd =>
      obtain ⟨hfeed, hreturn⟩ : c ≠ '\n' ∧ (c = '\r' → t.head? = some '\n') := by
        simpa using hnotEnd
      by_cases hc : c = '\r'
      · -- the line feed that follows is cut off as the rest of the line
        subst hc
        obtain ⟨t, rfl⟩ : ∃ u, t = '\n' :: u := by
          cases t with
          | nil => cases hreturn rfl
          | cons d u => exact ⟨u, by rw [Option.some.inj (hreturn rfl)]⟩
        rcases List.mem_cons.mp h with rfl | h
        · exact .ended unbroken_nil .crlf
        · exact ih (List.mem_cons_of_mem _ h)
      · split at h
        · obtain rfl := List.mem_singleton.mp h
          exact .unended (unbroken_cons.mpr ⟨⟨hfeed, hc⟩, unbroken_nil⟩)
        · next l' ls hlines =>
          rw [hlines] at ih
          rcases List.mem_cons.mp h with rfl | h
          · exact isLine_cons hfeed hc (ih List.mem_cons_self)
          · exact ih (List.mem_cons_of_mem _ h)

/-- Every carriage return stands right before a line feed. -/
def ReturnsFed : Text → Prop
  | [] => True
  | c :: t => (c = '\r' → t.head? = some '\n') ∧ ReturnsFed t

instance decidableReturnsFed : (t : Text) → Decidable (ReturnsFed t)
  | [] => inferInstanceAs (Decidable True)
  | c :: t =>
    have := decidableReturnsFed t
    inferInstanceAs (Decidable ((c = '\r' → t.head? = some '\n') ∧ ReturnsFed t))

/-- Without lone carriage returns only line feeds end lines. -/
theorem returnedLines_eq_endedLines {t : Text} (h : ReturnsFed t) :
    returnedLines t = endedLines t := by
  induction t with
  | nil => rfl
  | cons c t ih =>
    obtain ⟨hc, ht⟩ := h
    have hend : (c = '\n' || (c = '\r' && t.head? ≠ some '\n')) = decide (c = '\n') := by
      grind
    rw [returnedLines, endedLines, hend, ih ht]
    simp only [decide_eq_true_eq]

theorem returnsFed_of_not_mem {t : Text} (h : '\r' ∉ t) : ReturnsFed t := by
  induction t with
  | nil => trivial
  | cons c t ih =>
    obtain ⟨hc, ht⟩ := not_or.mp (mt List.mem_cons.mpr h)
    exact ⟨fun hreturn => absurd hreturn.symm hc, ih ht⟩

theorem returnsFed_append {s t : Text} (h : s.getLast? ≠ some '\r') :
    ReturnsFed (s ++ t) ↔ ReturnsFed s ∧ ReturnsFed t := by
  induction s with
  | nil => simp [ReturnsFed]
  | cons c s ih =>
    cases s with
    | nil =>
      have hc : c ≠ '\r' := by simpa using h
      simp [ReturnsFed, hc]
    | cons d s =>
      rw [List.getLast?_cons_cons] at h
      rw [List.cons_append, ReturnsFed, ReturnsFed, ih h, and_assoc]
      rfl

theorem ReturnsFed.of_append {s t : Text} (h : ReturnsFed (s ++ t)) : ReturnsFed t := by
  induction s with
  | nil => exact h
  | cons c s ih => exact ih h.2

end VersionDrift.Text
