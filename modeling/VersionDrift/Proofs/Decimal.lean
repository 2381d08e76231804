import VersionDrift.Decimal.Natural

/-!
# Numbers read in decimal

What is read in decimal is a run of ASCII digits, and its value is the number they
denote. What is written of a number reads back as that number.
-/

set_option autoImplicit false

namespace VersionDrift.Decimal

theorem digit?_of_isDigit {c : Char} (h : c.isDigit = true) :
    digit? 10 c = some (c.toNat - '0'.toNat) := by
  have hrange : 0x30 ≤ c.toNat ∧ c.toNat ≤ 0x39 := by
    simpa [Char.isDigit, UInt32.le_iff_toNat_le] using h
  have hvalue : c.toNat - 0x30 < 10 := by omega
  simp [digit?, hrange, hvalue]

theorem isDigit_of_digit? {c : Char} {d : Nat} (h : digit? 10 c = some d) : c.isDigit = true := by
  have hrange : 0x30 ≤ c.toNat ∧ c.toNat ≤ 0x39 := by
    refine Decidable.byContradiction fun hrange => ?_
    simp only [digit?, Bool.and_eq_true, decide_eq_true_eq, if_neg hrange] at h
    obtain ⟨hsmall, -⟩ := Option.ite_none_right_eq_some.mp h
    split at hsmall
    · omega
    · split at hsmall <;> omega
  simpa [Char.isDigit, UInt32.le_iff_toNat_le] using hrange

theorem readFrom_of_isDigit {ds : Text} (h : ∀ c ∈ ds, c.isDigit = true) (value : Nat) :
    readFrom 10 value ds = some (Nat.ofDigitChars 10 ds value) := by
  induction ds generalizing value with
  | nil => rfl
  | cons c ds ih =>
    obtain ⟨hc, hds⟩ := List.forall_mem_cons.mp h
    rw [readFrom, digit?_of_isDigit hc, Option.bind_some, ih hds, Nat.ofDigitChars_cons,
      Nat.mul_comm]

theorem isDigit_of_readFrom {ds : Text} {value n : Nat} (h : readFrom 10 value ds = some n) :
    ∀ c ∈ ds, c.isDigit = true := by
  induction ds generalizing value with
  | nil => simp
  | cons c ds ih =>
    obtain ⟨d, hd, hrest⟩ := Option.bind_eq_some_iff.mp h
    exact List.forall_mem_cons.mpr ⟨isDigit_of_digit? hd, ih hrest⟩

theorem read?_eq_some_iff {ds : Text} {n : Nat} : read? 10 ds = some n ↔
    ds ≠ [] ∧ (∀ c ∈ ds, c.isDigit = true) ∧ Nat.ofDigitChars 10 ds 0 = n := by
  cases ds with
  | nil => simp [read?]
  | cons c ds =>
    rw [read?]
    · constructor
      · intro h
        have hdigits := isDigit_of_readFrom h
        rw [readFrom_of_isDigit hdigits] at h
        exact ⟨by simp, hdigits, Option.some.inj h⟩
      · rintro ⟨-, hdigits, hn⟩
        rw [readFrom_of_isDigit hdigits, hn]
    · simp

@[simp] theorem read?_ofNat (n : Nat) : read? 10 (ofNat n) = some n :=
  read?_eq_some_iff.mpr ⟨Nat.toDigits_ne_nil, fun _ => isDigit_of_mem_ofNat,
    Nat.ofDigitChars_ten_toDigits⟩

end VersionDrift.Decimal
