import VersionDrift.Text.Line

/-!
# Lines and their endings

A line is its body with an ending. The lines of a text stay as they are when one is
replaced by another with the same ending.
-/

set_option autoImplicit false

namespace VersionDrift.Text

@[simp] theorem dropLast?_append (c : Char) (r : Text) : dropLast? c (r ++ [c]) = some r := by
  induction r with
  | nil => simp [dropLast?]
  | cons d r ih =>
    cases r with
    | nil => simp [dropLast?]
    | cons e r =>
      rw [List.cons_append, List.cons_append, dropLast?, ← List.cons_append, ih]
      · rfl
      · simp

theorem dropLast?_eq_some {c : Char} {t r : Text} (h : dropLast? c t = some r) : t = r ++ [c] := by
  induction t generalizing r with
  | nil => cases h
  | cons d t ih =>
    cases t with
    | nil =>
      rw [dropLast?] at h
      split at h
      · next hd => rw [hd, ← Option.some.inj h]; rfl
      · cases h
    | cons e t =>
      rw [dropLast?] at h
      · obtain ⟨u, hu, rfl⟩ := Option.map_eq_some_iff.mp h
        rw [List.cons_append, ← ih hu]
      · simp

def IsEnding (t : Text) : Prop := t = [] ∨ t = ['\n'] ∨ t = ['\r'] ∨ t = ['\r', '\n']

theorem dropLast?_eq_none {c : Char} {t : Text} (h : t.getLast? ≠ some c) :
    dropLast? c t = none := by
  cases hdrop : dropLast? c t with
  | none => rfl
  | some r => exact absurd (by simp [dropLast?_eq_some hdrop]) h

theorem getLast?_of_dropLast?_eq_none {c : Char} {t : Text} (h : dropLast? c t = none) :
    t.getLast? ≠ some c := by
  intro hlast
  obtain ⟨r, rfl⟩ := List.getLast?_eq_some_iff.mp hlast
  rw [dropLast?_append] at h
  cases h

theorem lineBody_append (line : Text) : ∃ ending, line = lineBody line ++ ending ∧ IsEnding ending ∧
    (line.getLast? = some '\n' → ending ≠ []) ∧
    ('\r' ∈ ending ∨ (lineBody line).getLast? ≠ some '\r') := by
  have hreturn (t : Text) : ∃ r, t = (dropLast? '\r' t).getD t ++ r ∧ (r = ['\r'] ∨
      r = [] ∧ ((dropLast? '\r' t).getD t).getLast? ≠ some '\r') := by
    cases h : dropLast? '\r' t with
    | none => exact ⟨[], by simp, .inr ⟨rfl, getLast?_of_dropLast?_eq_none h⟩⟩
    | some r => exact ⟨['\r'], dropLast?_eq_some h, .inl rfl⟩
  unfold lineBody
  cases hfed : dropLast? '\n' line with
  | none =>
    have hlast := getLast?_of_dropLast?_eq_none hfed
    obtain ⟨r, hr, hcases⟩ := hreturn line
    refine ⟨r, hr, ?_, fun h => absurd h hlast, ?_⟩
    · rcases hcases with rfl | ⟨rfl, -⟩ <;> simp [IsEnding]
    · rcases hcases with rfl | ⟨rfl, hne⟩
      · simp
      · exact .inr hne
  | some unfed =>
    obtain ⟨r, hr, hcases⟩ := hreturn unfed
    refine ⟨r ++ ['\n'], ?_, ?_, by simp, ?_⟩
    · rw [dropLast?_eq_some hfed, Option.getD_some, ← List.append_assoc, ← hr]
    · rcases hcases with rfl | ⟨rfl, -⟩ <;> simp [IsEnding]
    · rcases hcases with rfl | ⟨rfl, hne⟩
      · simp
      · exact .inr hne

def lineEnding (line : Text) : Text := line.drop (lineBody line).length

theorem lineBody_lineEnding (line : Text) : lineBody line ++ lineEnding line = line ∧
    IsEnding (lineEnding line) ∧ (line.getLast? = some '\n' → lineEnding line ≠ []) ∧
    ('\r' ∈ lineEnding line ∨ (lineBody line).getLast? ≠ some '\r') := by
  obtain ⟨ending, hline, hending, hlast, hreturn⟩ := lineBody_append line
  have hdrop : lineEnding line = ending := by
    calc lineEnding line = (lineBody line ++ ending).drop (lineBody line).length := by
          rw [← hline, lineEnding]
      _ = ending := List.drop_left
  rw [hdrop]
  exact ⟨hline.symm, hending, hlast, hreturn⟩

theorem endedLines_getLast {t line : Text} {above below : List Text}
    (h : endedLines t = above ++ line :: below) (hbelow : below ≠ []) :
    line.getLast? = some '\n' := by
  induction t generalizing above line with
  | nil => simp [endedLines] at h
  | cons c t ih =>
    unfold endedLines at h
    split at h
    · next hc =>
      cases above with
      | nil =>
        obtain ⟨rfl, -⟩ := List.cons.inj h
        simp [hc]
      | cons l above => exact ih (List.cons.inj h).2
    · split at h
      · next hnil =>
        cases above with
        | nil => exact absurd (List.cons.inj h).2.symm hbelow
        | cons l above => simp at h
      · next l ls hls =>
        cases above with
        | nil =>
          obtain ⟨rfl, hrest⟩ := List.cons.inj h
          have hsplit : endedLines t = [] ++ l :: below := by rw [hls, hrest]; rfl
          have := ih hsplit
          cases l with
          | nil => cases this
          | cons d l => rwa [List.getLast?_cons_cons]
        | cons l' above =>
          have hsplit : endedLines t = (l :: above) ++ line :: below := by
            rw [hls, (List.cons.inj h).2]
            rfl
          exact ih hsplit

theorem endedLines_feed {b : Text} (hb : '\n' ∉ b) (t : Text) :
    endedLines (b ++ '\n' :: t) = (b ++ ['\n']) :: endedLines t := by
  induction b with
  | nil => simp [endedLines]
  | cons c b ih =>
    have hc : c ≠ '\n' := fun hc => hb (hc ▸ List.mem_cons_self)
    rw [List.cons_append, endedLines, if_neg hc, ih fun hmem => hb (List.mem_cons_of_mem c hmem)]
    rfl

theorem endedLines_of_not_mem {b : Text} (hne : b ≠ []) (hb : '\n' ∉ b) : endedLines b = [b] := by
  induction b with
  | nil => exact absurd rfl hne
  | cons c b ih =>
    have hc : c ≠ '\n' := fun hc => hb (hc ▸ List.mem_cons_self)
    rw [endedLines, if_neg hc]
    cases b with
    | nil => rfl
    | cons d b => rw [ih (by simp) fun hmem => hb (List.mem_cons_of_mem c hmem)]

theorem endedLines_eq_cons {t line : Text} {below : List Text} (h : endedLines t = line :: below) :
    ∃ b, '\n' ∉ b ∧ (line = b ++ ['\n'] ∧ endedLines below.flatten = below ∨
      line = b ∧ b ≠ [] ∧ below = []) := by
  induction t generalizing line below with
  | nil => cases h
  | cons c t ih =>
    unfold endedLines at h
    split at h
    · next hc =>
      obtain ⟨rfl, rfl⟩ := List.cons.inj h
      exact ⟨[], List.not_mem_nil, .inl ⟨by simp [hc], by rw [endedLines_flatten]⟩⟩
    next hc =>
    split at h
    · next hnil =>
      obtain ⟨rfl, rfl⟩ := List.cons.inj h
      exact ⟨[c], by simpa using Ne.symm hc, .inr ⟨rfl, by simp, rfl⟩⟩
    · next l ls hls =>
      obtain ⟨rfl, rfl⟩ := List.cons.inj h
      obtain ⟨b, hb, hcases⟩ := ih hls
      refine ⟨c :: b, by simpa [hb] using Ne.symm hc, ?_⟩
      rcases hcases with ⟨rfl, hbelow⟩ | ⟨rfl, -, hbelow⟩
      · exact .inl ⟨rfl, hbelow⟩
      · exact .inr ⟨rfl, by simp, hbelow⟩

theorem shape_of_mem_endedLines {t line : Text} (h : line ∈ endedLines t) :
    ∃ b, '\n' ∉ b ∧ (line = b ++ ['\n'] ∨ line = b) := by
  obtain ⟨above, below, hsplit⟩ := List.append_of_mem h
  clear h
  induction above generalizing t with
  | nil =>
    obtain ⟨b, hb, ⟨hline, -⟩ | ⟨hline, -, -⟩⟩ := endedLines_eq_cons hsplit
    · exact ⟨b, hb, .inl hline⟩
    · exact ⟨b, hb, .inr hline⟩
  | cons l above ih =>
    obtain ⟨b, -, ⟨-, hrest⟩ | ⟨-, -, hrest⟩⟩ := endedLines_eq_cons hsplit
    · exact ih hrest
    · simp at hrest

/-- The lines stay as they are when one is replaced by a line that ends as it does. -/
theorem endedLines_replaced {t : Text} {above below : List Text} {b e b' : Text}
    (h : endedLines t = above ++ (b ++ e) :: below) (hb : '\n' ∉ b) (hb' : '\n' ∉ b')
    (hne : b' ≠ []) (he : IsEnding e) :
    endedLines (above.flatten ++ (b' ++ e) ++ below.flatten) = above ++ (b' ++ e) :: below := by
  induction above generalizing t with
  | nil =>
    have hend : '\n' ∉ e ∨ ∃ r, '\n' ∉ r ∧ e = r ++ ['\n'] := by
      rcases he with rfl | rfl | rfl | rfl
      · exact .inl (by decide)
      · exact .inr ⟨[], by decide, rfl⟩
      · exact .inl (by decide)
      · exact .inr ⟨['\r'], by decide, rfl⟩
    obtain ⟨a, ha, ⟨hline, hbelow⟩ | ⟨hline, -, rfl⟩⟩ := endedLines_eq_cons h
    · rcases hend with he | ⟨r, hr, rfl⟩
      · have hfeed : '\n' ∈ b ++ e := by rw [hline]; simp
        simp [hb, he] at hfeed
      · have hfeed : '\n' ∉ b' ++ r := by simp [hb', hr]
        have hcons := endedLines_feed hfeed below.flatten
        rw [hbelow] at hcons
        simpa using hcons
    · rcases hend with he | ⟨r, -, rfl⟩
      · have hfeed : '\n' ∉ b' ++ e := by simp [hb', he]
        simpa using endedLines_of_not_mem (by simp [hne]) hfeed
      · exact absurd (hline ▸ by simp) ha
  | cons l above ih =>
    obtain ⟨a, ha, ⟨rfl, hrest⟩ | ⟨-, -, hrest⟩⟩ := endedLines_eq_cons h
    · have hcons := endedLines_feed ha (above.flatten ++ (b' ++ e) ++ below.flatten)
      rw [ih hrest] at hcons
      simpa using hcons
    · simp at hrest

theorem feed_not_mem_lineBody {line b : Text} (hb : '\n' ∉ b) (h : line = b ++ ['\n'] ∨ line = b) :
    '\n' ∉ lineBody line := by
  obtain ⟨hline, hending, hlast, -⟩ := lineBody_lineEnding line
  rcases h with h | h
  · have hne : lineEnding line ≠ [] := hlast (by simp [h])
    have hcut : lineBody line ++ lineEnding line = b ++ ['\n'] := hline.trans h
    rcases hending with he | he | he | he
    · exact absurd he hne
    · rw [he] at hcut
      rwa [List.append_cancel_right hcut]
    · rw [he] at hcut
      simpa using congrArg List.getLast? hcut
    · rw [he, List.append_cons] at hcut
      have hbody := List.append_cancel_right hcut
      intro hmem
      exact hb (hbody ▸ List.mem_append_left _ hmem)
  · intro hmem
    exact hb (h ▸ hline ▸ List.mem_append_left _ hmem)

theorem lineBody_append_ending {body e : Text} (he : IsEnding e) (hfeed : '\n' ∉ body)
    (hreturn : '\r' ∈ e ∨ body.getLast? ≠ some '\r') : lineBody (body ++ e) = body := by
  have hnone {t : Text} (ht : '\n' ∉ t) : dropLast? '\n' t = none :=
    dropLast?_eq_none fun h => ht (List.mem_of_getLast? h)
  rcases he with rfl | rfl | rfl | rfl
  · have hlast : dropLast? '\r' body = none := dropLast?_eq_none (by simpa using hreturn)
    simp [lineBody, hnone hfeed, hlast]
  · have hlast : dropLast? '\r' body = none := dropLast?_eq_none (by simpa using hreturn)
    simp [lineBody, hlast]
  · have hfed : dropLast? '\n' (body ++ ['\r']) = none := hnone (by simp [hfeed])
    simp [lineBody, hfed]
  · have hfed := dropLast?_append '\n' (body ++ ['\r'])
    rw [List.append_assoc, List.cons_append, List.nil_append] at hfed
    simp [lineBody, hfed]

end VersionDrift.Text
