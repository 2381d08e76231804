import VersionDrift.Proofs.Manifest.Scalar
import VersionDrift.Proofs.Yaml.Word
import VersionDrift.Yaml.Resolution

/-!
# Numbers are words

No way to write a number has white space in it.
-/

set_option autoImplicit false

namespace VersionDrift

open Yaml

section

variable {s t : Text} {c : Char}

@[simp] theorem Yaml.isWord_nil : IsWord [] := by
  intro c hc
  cases hc

@[simp] theorem Yaml.isWord_append : IsWord (s ++ t) ↔ IsWord s ∧ IsWord t :=
  List.forall_mem_append

@[simp]
theorem Yaml.isWord_cons : IsWord (c :: t) ↔ (isBlank c = false ∧ isBreak c = false) ∧ IsWord t :=
  List.forall_mem_cons

end

namespace Decimal

variable {radix n : Nat} {t : Text}

theorem isWord_of_readFrom {value : Nat} (h : readFrom radix value t = some n) : IsWord t := by
  induction t generalizing value with
  | nil => simp
  | cons c t ih =>
    obtain ⟨d, hd, hrest⟩ := Option.bind_eq_some_iff.mp h
    exact isWord_cons.mpr ⟨word_of_digit? hd, ih hrest⟩

theorem isWord_of_read? (h : read? radix t = some n) : IsWord t := by
  cases t with
  | nil => cases h
  | cons c t => exact isWord_of_readFrom h

namespace Scientific

theorem isWord_of_exponent? {n : Int} (h : exponent? t = some n) : IsWord t := by
  unfold exponent? at h
  split at h
  · obtain ⟨m, hm, -⟩ := Option.map_eq_some_iff.mp h
    obtain ⟨k, hk, -⟩ := Option.bind_eq_some_iff.mp hm
    exact isWord_cons.mpr ⟨⟨rfl, rfl⟩, isWord_of_read? hk⟩
  · obtain ⟨m, hm, -⟩ := Option.map_eq_some_iff.mp h
    exact isWord_cons.mpr ⟨⟨rfl, rfl⟩, isWord_of_read? hm⟩
  · obtain ⟨m, hm, -⟩ := Option.map_eq_some_iff.mp h
    exact isWord_of_read? hm

theorem isWord_of_mantissa? {m : Text} {s : Scientific}
    (h : mantissa? (m.takeWhile (· ≠ '.')) ((m.dropWhile (· ≠ '.')).drop 1) = some s) :
    IsWord m := by
  obtain ⟨n, hn, -⟩ := Option.map_eq_some_iff.mp h
  obtain ⟨hwhole, hfraction⟩ := isWord_append.mp (isWord_of_read? hn)
  rw [← List.takeWhile_append_dropWhile (p := (· ≠ '.')) (l := m)]
  refine isWord_append.mpr ⟨hwhole, ?_⟩
  cases hdrop : m.dropWhile (· ≠ '.') with
  | nil => simp
  | cons c r =>
    obtain rfl : c = '.' := by simpa using Text.head_dropWhile hdrop
    rw [hdrop] at hfraction
    exact isWord_cons.mpr ⟨⟨rfl, rfl⟩, hfraction⟩

theorem isWord_of_scientific {s : Scientific} (h : read? t = some s) : IsWord t := by
  unfold read? at h
  dsimp only at h
  obtain ⟨s', hmantissa, h⟩ := Option.bind_eq_some_iff.mp h
  have hword := isWord_of_mantissa? hmantissa
  rw [Text.drop_length_takeWhile] at h
  rw [← List.takeWhile_append_dropWhile (p := fun c => !(decide (c = 'e') || decide (c = 'E')))
    (l := t)]
  refine isWord_append.mpr ⟨hword, ?_⟩
  split at h
  · next hnil =>
    rw [hnil]
    simp
  · next c e hcons =>
    obtain ⟨n, hn, -⟩ := Option.map_eq_some_iff.mp h
    have hmark : c = 'e' ∨ c = 'E' := by
      simpa only [Bool.not_eq_false', Bool.or_eq_true, decide_eq_true_eq] using
        Text.head_dropWhile hcons
    rw [hcons]
    refine isWord_cons.mpr ⟨?_, isWord_of_exponent? hn⟩
    rcases hmark with rfl | rfl <;> exact ⟨rfl, rfl⟩

end Scientific
end Decimal

namespace Yaml.Number

open Decimal

variable {t : Text}

theorem marked?_eq_some {radix : Nat} {r : Text} (h : marked? t = some (radix, r)) :
    ∃ c ∈ ['x', 'o', 'b'], t = '0' :: c :: r := by
  unfold marked? at h
  split at h
  · cases h
    exact ⟨'x', by simp, rfl⟩
  · cases h
    exact ⟨'o', by simp, rfl⟩
  · cases h
    exact ⟨'b', by simp, rfl⟩
  · cases h

theorem isWord_of_magnitude? {n : Nat} (h : magnitude? t = some n) : IsWord t := by
  unfold magnitude? at h
  split at h
  · next radix r hmarked =>
    obtain ⟨c, hc, rfl⟩ := marked?_eq_some hmarked
    have hmark : ∀ c ∈ ['x', 'o', 'b'], isBlank c = false ∧ isBreak c = false := by
      simp [isBlank, isBreak]
    exact isWord_cons.mpr ⟨⟨rfl, rfl⟩, isWord_cons.mpr ⟨hmark c hc, isWord_of_read? h⟩⟩
  · exact isWord_of_read? h

theorem isWord_of_integer? {n : Int} (h : integer? t = some n) : IsWord t := by
  unfold integer? at h
  split at h
  · cases h
  split at h
  · obtain ⟨m, hm, -⟩ := Option.map_eq_some_iff.mp h
    obtain ⟨k, hk, -⟩ := Option.bind_eq_some_iff.mp hm
    exact isWord_cons.mpr ⟨⟨rfl, rfl⟩, isWord_of_magnitude? hk⟩
  · obtain ⟨m, hm, -⟩ := Option.map_eq_some_iff.mp h
    exact isWord_cons.mpr ⟨⟨rfl, rfl⟩, isWord_of_magnitude? hm⟩
  · obtain ⟨m, hm, -⟩ := Option.map_eq_some_iff.mp h
    exact isWord_of_magnitude? hm

theorem isWord_of_fixedInteger? {n : Int} (h : fixedInteger? t = .ok (some n)) : IsWord t := by
  unfold fixedInteger? at h
  split at h
  · cases h
  · next m hm => exact isWord_of_integer? hm

theorem isWord_of_float? {x : Binary64} (h : float? t = some x) : IsWord t := by
  have hunsigned {negative : Bool} {r : Text}
      (h : (if decide (r ∈ [".inf".toList, ".Inf".toList, ".INF".toList]) = true then
        some (.infinite negative)
      else (Scientific.read? r).bind fun s =>
        let x := Binary64.ofScientific negative s
        if x.isFinite then some x else none) = some x) : IsWord r := by
    split at h
    · next hinfinity =>
      have hall : ∀ r ∈ [".inf".toList, ".Inf".toList, ".INF".toList], IsWord r := by
        simp [isBlank, isBreak]
      exact hall r (of_decide_eq_true hinfinity)
    · obtain ⟨s, hs, -⟩ := Option.bind_eq_some_iff.mp h
      exact Scientific.isWord_of_scientific hs
  unfold float? at h
  dsimp only at h
  split at h
  · next hnan =>
    have hall : ∀ r ∈ [".nan".toList, ".NaN".toList, ".NAN".toList], IsWord r := by
      simp [isBlank, isBreak]
    exact hall t hnan
  split at h
  · exact isWord_cons.mpr ⟨⟨rfl, rfl⟩, hunsigned h⟩
  · exact isWord_cons.mpr ⟨⟨rfl, rfl⟩, hunsigned h⟩
  · exact hunsigned h

theorem isWord_of_ofText? {n : Number} (h : ofText? t = .ok (some n)) : IsWord t := by
  obtain ⟨o, ho, h⟩ := bind_eq_ok h
  cases o with
  | some m => exact isWord_of_fixedInteger? ho
  | none =>
    dsimp only at h
    split at h
    · cases h
    · obtain ⟨x, hx, -⟩ := Option.map_eq_some_iff.mp (Except.ok.inj h)
      exact isWord_of_float? hx

end Yaml.Number

namespace Yaml.Resolution

variable {t : Text} {n : Number}

theorem isWord_of_plain (h : plain t = .ok (.number n)) : IsWord t := by
  unfold plain at h
  split at h
  · cases h
  split at h
  · cases h
  · cases hn : Number.ofText? t with
    | error e => rw [hn] at h; cases h
    | ok o =>
      rw [hn] at h
      cases o with
      | none => cases h
      | some m => exact Number.isWord_of_ofText? hn

theorem isWord_of_underTag {tag : Text} (h : underTag tag t = .ok (.number n)) : IsWord t := by
  unfold underTag at h
  split at h
  · cases hb : boolean? t <;> rw [hb] at h <;> cases h
  split at h
  · obtain ⟨o, ho, h⟩ := bind_eq_ok h
    cases o with
    | none => cases h
    | some m => exact Number.isWord_of_fixedInteger? ho
  split at h
  · cases hx : Number.float? t with
    | none => rw [hx] at h; cases h
    | some x => exact Number.isWord_of_float? hx
  split at h
  · split at h <;> cases h
  · cases h

theorem marked_eq_number {mark : Option Text} {v : Value} (h : marked mark v = .number n) :
    v = .number n := by
  cases mark with
  | none => exact h
  | some tag => cases h

theorem isWord_of_scalar {tagRead : Bool} {tag : Option Text} {style : ScalarStyle}
    (h : scalar tagRead tag t style = .ok (.number n)) : IsWord t := by
  unfold scalar at h
  dsimp only at h
  split at h
  · exact isWord_of_underTag h
  · cases hp : plain t with
    | error e => rw [hp] at h; cases h
    | ok v =>
      rw [hp] at h
      rw [marked_eq_number (Except.ok.inj h)] at hp
      exact isWord_of_plain hp
  · cases marked_eq_number (Except.ok.inj h)

theorem ne_nil_of_scalar {tagRead : Bool} {tag : Option Text} {style : ScalarStyle}
    (h : scalar tagRead tag t style = .ok (.number n)) : t ≠ [] := by
  rintro rfl
  unfold scalar at h
  dsimp only at h
  split at h
  · unfold underTag at h
    split at h
    · cases h
    split at h
    · cases h
    split at h
    · cases h
    split at h
    · cases h
    · cases h
  · cases marked_eq_number (Except.ok.inj h)
  · cases marked_eq_number (Except.ok.inj h)

end Yaml.Resolution
end VersionDrift
