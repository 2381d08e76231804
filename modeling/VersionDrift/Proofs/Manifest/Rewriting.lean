import VersionDrift.Header.Triple
import VersionDrift.Manifest.Document
import VersionDrift.Proofs.Manifest.Place

/-!
# Rewriting a manifest

A dotted version needs no quotes and no escapes, so every style writes it literally.
A rewritten manifest is the old text with another token, read again; a version that
differs makes a text that differs.
-/

set_option autoImplicit false

namespace VersionDrift

namespace Text

theorem replaceChar_of_not_mem {c : Char} {t : Text} (by_ : Text) (h : c ∉ t) :
    replaceChar c by_ t = t := by
  induction t with
  | nil => rfl
  | cons d t ih =>
    have hd : d ≠ c := fun hd => h (by simp [hd])
    have ht : c ∉ t := fun ht => h (by simp [ht])
    rw [replaceChar, if_neg hd, ih ht]

theorem mem_replaceChar {c : Char} {t by_ : Text} (hby : c ∈ by_) (h : c ∈ t) :
    c ∈ replaceChar c by_ t := by
  induction t with
  | nil => cases h
  | cons d t ih =>
    unfold replaceChar
    split
    · simp [hby]
    · next hd =>
      rcases List.mem_cons.mp h with rfl | h
      · exact absurd rfl hd
      · simp [ih h]

theorem mem_of_mem_replaceChar {c d : Char} {by_ t : Text} (h : d ∈ replaceChar c by_ t) :
    d ∈ t ∨ d ∈ by_ := by
  induction t with
  | nil => cases h
  | cons e t ih =>
    unfold replaceChar at h
    split at h
    · rcases List.mem_append.mp h with h | h
      · exact .inr h
      · exact (ih h).imp_left (List.mem_cons_of_mem e)
    · rcases List.mem_cons.mp h with rfl | h
      · exact .inl List.mem_cons_self
      · exact (ih h).imp_left (List.mem_cons_of_mem e)

theorem replaceChar_append (c : Char) (by_ s t : Text) :
    replaceChar c by_ (s ++ t) = replaceChar c by_ s ++ replaceChar c by_ t := by
  induction s with
  | nil => rfl
  | cons d s ih =>
    rw [List.cons_append, replaceChar, replaceChar, ih]
    split
    · rw [List.append_assoc]
    · rfl

end Text

namespace Triple

theorem not_mem_dotted {v : Triple} {c : Char} (hdigit : c.isDigit = false) (hpoint : c ≠ '.') :
    c ∉ v.dotted := by
  intro h
  rcases mem_dotted h with h | h
  · rw [h] at hdigit; cases hdigit
  · exact hpoint h

@[simp] theorem isBareSafe_dotted (v : Triple) : Style.isBareSafe v.dotted = true := by
  have hall : v.dotted.all Style.isBareCharacter = true := by
    apply List.all_eq_true.mpr
    intro c hc
    rcases mem_dotted hc with h | h
    · simp [Style.isBareCharacter, Char.isAlphanum, h]
    · simp [Style.isBareCharacter, h]
  simp [Style.isBareSafe, hall, v.points_dotted]

@[simp] theorem encode_plain (v : Triple) : Style.plain.encode v.dotted = v.dotted := by
  simp [Style.encode]

@[simp] theorem encode_single (v : Triple) :
    Style.single.encode v.dotted = '\'' :: v.dotted ++ ['\''] := by
  simp only [Style.encode, Style.singleQuoted]
  rw [Text.replaceChar_of_not_mem _ (not_mem_dotted (by decide) (by decide))]

@[simp]
theorem encode_double (v : Triple) : Style.double.encode v.dotted = '"' :: v.dotted ++ ['"'] := by
  simp only [Style.encode, Style.doubleQuoted]
  rw [Text.replaceChar_of_not_mem (c := '\\') _ (not_mem_dotted (by decide) (by decide)),
    Text.replaceChar_of_not_mem _ (not_mem_dotted (by decide) (by decide))]

theorem mem_encode {style : Style} {v : Triple} {c : Char} (h : c ∈ style.encode v.dotted) :
    c.isDigit = true ∨ c = '.' ∨ c = '\'' ∨ c = '"' := by
  have hquoted {q : Char} (hc : c ∈ q :: v.dotted ++ [q]) :
      (c.isDigit = true ∨ c = '.') ∨ c = q := by
    simp only [List.cons_append, List.mem_cons, List.mem_append, List.not_mem_nil, or_false] at hc
    rcases hc with hc | hc | hc
    · exact .inr hc
    · exact .inl (mem_dotted hc)
    · exact .inr hc
  cases style with
  | plain =>
    rw [v.encode_plain] at h
    exact (mem_dotted h).imp_right .inl
  | single =>
    rw [v.encode_single] at h
    grind
  | double =>
    rw [v.encode_double] at h
    grind

end Triple

theorem Style.Spells.eq_dotted {style : Style} {token value : Text} {v : Triple}
    (h : style.Spells token value) (htoken : token = style.encode v.dotted) : value = v.dotted := by
  cases h with
  | plain => rw [htoken, v.encode_plain]
  | single =>
    rw [v.encode_single, Style.singleQuoted] at htoken
    have hvalue := List.append_cancel_right (List.cons.inj htoken).2
    have hquote : '\'' ∉ value := by
      intro hmem
      have hkept : '\'' ∈ Text.replaceChar '\'' ['\'', '\''] value :=
        Text.mem_replaceChar (by simp) hmem
      rw [hvalue] at hkept
      exact Triple.not_mem_dotted (by decide) (by decide) hkept
    rwa [Text.replaceChar_of_not_mem _ hquote] at hvalue
  | double =>
    rw [v.encode_double] at htoken
    exact List.append_cancel_right (List.cons.inj htoken).2

/-- What is written for a value is the token that spells it, unless a bare one is not safe. -/
theorem Style.Spells.encode_value {style : Style} {token value : Text}
    (h : style.Spells token value) (hsafe : style = .plain → Style.isBareSafe value = true) :
    style.encode value = token := by
  cases h with
  | plain => exact if_pos (hsafe rfl)
  | single => rfl
  | double hquote hescape =>
    simp only [Style.encode, Style.doubleQuoted]
    rw [Text.replaceChar_of_not_mem _ hescape, Text.replaceChar_of_not_mem _ hquote]

theorem Style.Spells.token_eq {style : Style} {token value : Text} {v : Triple}
    (h : style.Spells token value) (hvalue : value = v.dotted) : token = style.encode v.dotted := by
  subst hvalue
  exact (h.encode_value fun _ => v.isBareSafe_dotted).symm

theorem Located.replaced_self {t : Text} {l : Located} {v : Triple} (h : find t = .ok l)
    (hv : l.value = v.dotted) : l.before ++ l.style.encode v.dotted ++ l.after = t := by
  obtain ⟨happend, hspells⟩ := find_append h
  rw [← hspells.token_eq hv, happend]

namespace Manifest

theorem loadWith_eq_ok {read : Reader} {source : Text} {m : Manifest}
    (h : loadWith read source = .ok m) : ∃ x s, read source = .ok x ∧ stated x = .ok s ∧
      m = ⟨source, versionOf source s⟩ := by
  unfold loadWith at h
  split at h
  · cases h
  · next x hx =>
    split at h
    · cases h
    · next s hs => exact ⟨x, s, hx, hs, (Except.ok.inj h).symm⟩

theorem source_of_loadWith {read : Reader} {source : Text} {m : Manifest}
    (h : loadWith read source = .ok m) : m.source = source := by
  obtain ⟨x, s, -, -, rfl⟩ := loadWith_eq_ok h
  rfl

theorem source_of_load {source : Text} {m : Manifest} (h : load source = .ok m) :
    m.source = source := source_of_loadWith h

theorem locate_eq_ok {m : Manifest} {l : Located} (h : m.locate = .ok l) :
    Located.find m.source = .ok l ∧ l.value = m.version := by
  unfold locate at h
  split at h
  · cases h
  · next l' hl' =>
    split at h
    · next hvalue =>
      obtain rfl := Except.ok.inj h
      exact ⟨hl', hvalue⟩
    · cases h

theorem rewriteWith_eq_ok {read : Reader} {v : Text} {m new : Manifest}
    (h : m.rewriteWith read v = .ok new) : ∃ l, Located.find m.source = .ok l ∧
      l.value = m.version ∧ new.source = l.before ++ l.style.encode v ++ l.after ∧
      loadWith read new.source = .ok new ∧ new.version = v := by
  unfold rewriteWith at h
  split at h
  · cases h
  · next l hl =>
    obtain ⟨hfind, hvalue⟩ := locate_eq_ok hl
    split at h
    · cases h
    · next new' hload =>
      split at h
      · next hversion =>
        obtain rfl := Except.ok.inj h
        have hsource := source_of_loadWith hload
        exact ⟨l, hfind, hvalue, hsource, by rw [hsource, hload], hversion⟩
      · cases h

theorem source_ne_of_rewriteWith {read : Reader} {v : Triple} {m new : Manifest}
    (h : m.rewriteWith read v.dotted = .ok new) (hv : m.version ≠ v.dotted) :
    new.source ≠ m.source := by
  obtain ⟨l, hfind, hvalue, hsource, -, -⟩ := rewriteWith_eq_ok h
  obtain ⟨happend, hspells⟩ := Located.find_append hfind
  intro heq
  rw [hsource, ← happend] at heq
  have htoken := List.append_cancel_left (List.append_cancel_right heq)
  exact hv (hvalue ▸ hspells.eq_dotted htoken.symm)

end Manifest
end VersionDrift
