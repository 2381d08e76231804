import VersionDrift.Text.Basic

/-!
# Cuts at byte offsets

A text is cut at an offset that counts the bytes of its UTF-8 form. The cut fails beyond the
end of the text and inside a character, so the offsets that allow one are the byte counts of
the texts that the text begins with.
-/

set_option autoImplicit false

namespace VersionDrift

inductive Miscut where
  | beyond
  | inside
deriving DecidableEq, Repr

namespace Text

def halves : Nat → Text → Except Miscut (Text × Text)
  | 0, t => .ok ([], t)
  | _ + 1, [] => .error .beyond
  | n + 1, c :: t =>
    if c.utf8Size ≤ n + 1 then
      (halves (n + 1 - c.utf8Size) t).map fun (s, r) => (c :: s, r)
    else .error .inside

def cutFrom (first : Nat) (t : Text) : Except Miscut Text := (halves first t).map Prod.snd

def cutTo (last : Nat) (t : Text) : Except Miscut Text := (halves last t).map Prod.fst

/-- The text between two offsets. -/
def cut (first last : Nat) (t : Text) : Except Miscut Text := do cutFrom first (← cutTo last t)

def offsets (piece : Text) : Text → List Nat
  | [] => []
  | c :: t =>
    let later := (offsets piece t).map (c.utf8Size + ·)
    if startsWith piece (c :: t) then 0 :: later else later

def offset? (c : Char) (t : Text) : Option Nat := (offsets [c] t).head?

def bytes (t : Text) : List UInt8 := t.flatMap String.utf8EncodeChar

@[simp] theorem halves_zero (t : Text) : halves 0 t = .ok ([], t) := by
  cases t <;> rfl

theorem halves_cons (c : Char) (t : Text) (n : Nat) :
    halves (c.utf8Size + n) (c :: t) = (halves n t).map fun (s, r) => (c :: s, r) := by
  obtain ⟨k, hk⟩ : ∃ k, c.utf8Size + n = k + 1 :=
    Nat.exists_eq_add_one.mpr (Nat.add_pos_left c.utf8Size_pos n)
  rw [hk, halves, ← hk, if_pos (Nat.le_add_right _ _), Nat.add_sub_cancel_left]

/-- A text has halves where it is put together from them, and nowhere else. -/
theorem halves_eq_ok_iff {n : Nat} {t s r : Text} :
    halves n t = .ok (s, r) ↔ t = s ++ r ∧ n = byteCount s := by
  constructor
  · intro h
    induction t generalizing n s with
    | nil =>
      cases n with
      | zero =>
        obtain ⟨rfl, rfl⟩ := Prod.mk.inj (Except.ok.inj h)
        exact ⟨rfl, rfl⟩
      | succ n => cases h
    | cons c t ih =>
      cases n with
      | zero =>
        obtain ⟨rfl, rfl⟩ := Prod.mk.inj (Except.ok.inj h)
        exact ⟨rfl, rfl⟩
      | succ n =>
        rw [halves] at h
        split at h
        · next hsize =>
          cases hrest : halves (n + 1 - c.utf8Size) t with
          | error why =>
            rw [hrest] at h
            cases h
          | ok parts =>
            obtain ⟨s', r'⟩ := parts
            rw [hrest] at h
            obtain ⟨rfl, rfl⟩ := Prod.mk.inj (Except.ok.inj h)
            obtain ⟨rfl, hcount⟩ := ih hrest
            exact ⟨rfl, by rw [byteCount_cons, ← hcount, Nat.add_sub_of_le hsize]⟩
        · cases h
  · rintro ⟨rfl, rfl⟩
    induction s with
    | nil => exact halves_zero r
    | cons c s ih =>
      rw [List.cons_append, byteCount_cons, halves_cons, ih]
      rfl

section

variable {n : Nat} {t s r : Text}

theorem cutFrom_of_append (ht : t = s ++ r) (hn : n = byteCount s) : cutFrom n t = .ok r := by
  rw [cutFrom, halves_eq_ok_iff.mpr ⟨ht, hn⟩]
  rfl

theorem cutTo_of_append (ht : t = s ++ r) (hn : n = byteCount s) : cutTo n t = .ok s := by
  rw [cutTo, halves_eq_ok_iff.mpr ⟨ht, hn⟩]
  rfl

theorem cut_of_append {m : Text} {k : Nat} (ht : t = s ++ m ++ r) (hn : n = byteCount s)
    (hk : k = byteCount (s ++ m)) : cut n k t = .ok m := by
  rw [cut, cutTo_of_append ht hk]
  exact cutFrom_of_append rfl hn

end

theorem cut_quoted {quote : Char} (hquote : quote.utf8Size = 1) (inner r : Text) :
    cut 1 (byteCount inner + 1) (quote :: (inner ++ quote :: r)) = .ok inner ∧
      cutFrom (byteCount inner + 1 + 1) (quote :: (inner ++ quote :: r)) = .ok r ∧
      byteCount (quote :: inner ++ [quote]) = byteCount inner + 1 + 1 := by
  have hcount : byteCount (quote :: inner ++ [quote]) = byteCount inner + 1 + 1 := by
    simp [hquote]
    omega
  refine ⟨?_, cutFrom_of_append (by simp) hcount.symm, hcount⟩
  refine cut_of_append (s := [quote]) (r := quote :: r) (by simp) (by simp [hquote]) ?_
  simp [hquote, Nat.add_comm]

theorem byteCount_ne_zero {t : Text} (h : t ≠ []) : byteCount t ≠ 0 := by
  cases t with
  | nil => exact absurd rfl h
  | cons c t =>
    have hpos := c.utf8Size_pos
    rw [byteCount_cons]
    omega

theorem byteCount_sub_dropWhile (p : Char → Bool) (t : Text) :
    byteCount t - byteCount (t.dropWhile p) = byteCount (t.takeWhile p) := by
  conv => lhs; rw [← List.takeWhile_append_dropWhile (p := p) (l := t), byteCount_append]
  rw [List.takeWhile_append_dropWhile, Nat.add_sub_cancel]

theorem utf8ByteSize_ofList (t : Text) : (String.ofList t).utf8ByteSize = byteCount t := by
  induction t with
  | nil => rfl
  | cons c t ih =>
    rw [← List.singleton_append, String.ofList_append, String.utf8ByteSize_append, ih,
      ← String.singleton_eq_ofList, String.utf8ByteSize_singleton]
    rfl

/-- A text has halves exactly where the string of its characters has a position. -/
theorem halves_isOk_iff (n : Nat) (t : Text) :
    (∃ parts, halves n t = .ok parts) ↔ (String.Pos.Raw.mk n).IsValid (String.ofList t) := by
  rw [String.Pos.Raw.isValid_iff_exists_append]
  constructor
  · rintro ⟨⟨s, r⟩, h⟩
    obtain ⟨rfl, rfl⟩ := halves_eq_ok_iff.mp h
    refine ⟨String.ofList s, String.ofList r, String.ofList_append, ?_⟩
    rw [String.rawEndPos, utf8ByteSize_ofList]
  · rintro ⟨s, r, happend, hn⟩
    refine ⟨(s.toList, r.toList), halves_eq_ok_iff.mpr ⟨?_, ?_⟩⟩
    · simpa using congrArg String.toList happend
    · rw [← utf8ByteSize_ofList, String.ofList_toList]
      exact congrArg String.Pos.Raw.byteIdx hn

theorem isValid_of_append {n : Nat} {t s r : Text} (ht : t = s ++ r) (hn : n = byteCount s) :
    (String.Pos.Raw.mk n).IsValid (String.ofList t) :=
  (halves_isOk_iff n t).mp ⟨(s, r), halves_eq_ok_iff.mpr ⟨ht, hn⟩⟩

theorem offset?_eq (c : Char) (t : Text) : offset? c t =
    (t.dropWhile (· ≠ c)).head?.map fun _ => byteCount (t.takeWhile (· ≠ c)) := by
  induction t with
  | nil => rfl
  | cons d t ih =>
    rw [offset?] at ih ⊢
    by_cases hd : d = c
    · subst hd
      have hthere : startsWith [d] (d :: t) = true := by simp
      simp [offsets, hthere]
    · have hother : startsWith [c] (d :: t) = false := by simp [hd]
      rw [List.dropWhile_cons_of_pos (by simpa using hd),
        List.takeWhile_cons_of_pos (by simpa using hd), offsets, hother]
      simp [ih, Function.comp_def]

theorem bytes_cons (c : Char) (t : Text) :
    bytes (c :: t) = String.utf8EncodeChar c ++ bytes t := List.flatMap_cons

theorem bytes_append (s t : Text) : bytes (s ++ t) = bytes s ++ bytes t := List.flatMap_append

theorem length_bytes (t : Text) : (bytes t).length = byteCount t := by
  induction t with
  | nil => rfl
  | cons c t ih =>
    rw [bytes, List.flatMap_cons, List.length_append, String.length_utf8EncodeChar, ← bytes, ih,
      byteCount]

theorem eq_quote_of_mem_utf8EncodeChar {c : Char} (h : 0x27 ∈ String.utf8EncodeChar c) :
    c = '\'' := by
  have hbyte {v : Nat} (hv : v < 256) (h : 0x27 = UInt8.ofNat v) : v = 0x27 := by
    have hnat := congrArg UInt8.toNat h
    rw [UInt8.toNat_ofNat_of_lt' hv] at hnat
    exact hnat.symm
  simp only [String.utf8EncodeChar] at h
  split at h
  · exact Char.ext (UInt32.toNat_inj.mp (hbyte (by omega) (List.mem_singleton.mp h)))
  split at h
  · simp only [List.mem_cons, List.not_mem_nil, or_false] at h
    rcases h with h | h <;> have := hbyte (by omega) h <;> omega
  split at h
  · simp only [List.mem_cons, List.not_mem_nil, or_false] at h
    rcases h with h | h | h <;> have := hbyte (by omega) h <;> omega
  · simp only [List.mem_cons, List.not_mem_nil, or_false] at h
    rcases h with h | h | h | h <;> have := hbyte (by omega) h <;> omega

theorem head?_bytes {t : Text} (h : t.head? ≠ some '\'') : (bytes t).head? ≠ some 0x27 := by
  cases t with
  | nil => simp [bytes]
  | cons c t =>
    have hc : 0x27 ∉ String.utf8EncodeChar c := fun hmem =>
      h (by rw [eq_quote_of_mem_utf8EncodeChar hmem]; rfl)
    have hsize := String.length_utf8EncodeChar c
    have hpos := c.utf8Size_pos
    rw [bytes_cons]
    generalize String.utf8EncodeChar c = bs at hc hsize
    cases bs with
    | nil => simp at hsize; omega
    | cons b bs => exact fun hb => hc (by rw [Option.some.inj hb]; exact List.mem_cons_self)

end Text
end VersionDrift
