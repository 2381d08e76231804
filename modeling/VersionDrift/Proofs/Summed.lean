import VersionDrift.Text.Basic

/-!
# Lists that differ in a number of places

`Summed R n` relates two lists of one length whose elements are related by `R`; the
number `n` adds up the numbers of the elements.
-/

set_option autoImplicit false

namespace VersionDrift

inductive Summed {α β : Type} (R : Nat → α → β → Prop) : Nat → List α → List β → Prop
  | nil : Summed R 0 [] []
  | cons {i j : Nat} {a : α} {b : β} {as : List α} {bs : List β} (head : R i a b)
      (tail : Summed R j as bs) : Summed R (i + j) (a :: as) (b :: bs)

/-- Pairs that are related on both sides. -/
inductive Paired {α β : Type} (R : Nat → α → β → Prop) : Nat → α × α → β × β → Prop
  | mk {i j : Nat} {a a' : α} {b b' : β} (fst : R i a b) (snd : R j a' b') :
      Paired R (i + j) (a, a') (b, b')

namespace Summed

variable {α β : Type} {R : Nat → α → β → Prop} {m n : Nat} {as cs : List α} {bs ds : List β}

theorem single {a : α} {b : β} (h : R n a b) : Summed R n [a] [b] := by
  have hcons := Summed.cons h (.nil (R := R))
  exact hcons

theorem length_eq (h : Summed R n as bs) : as.length = bs.length := by
  induction h with
  | nil => rfl
  | cons head tail ih => rw [List.length_cons, List.length_cons, ih]

theorem append (h : Summed R m as bs) (h' : Summed R n cs ds) :
    Summed R (m + n) (as ++ cs) (bs ++ ds) := by
  induction h with
  | nil => simpa using h'
  | cons head tail ih =>
    rw [Nat.add_assoc]
    exact .cons head ih

theorem reverse (h : Summed R n as bs) : Summed R n as.reverse bs.reverse := by
  induction h with
  | nil => exact .nil
  | @cons i j a b as bs head tail ih =>
    rw [List.reverse_cons, List.reverse_cons, Nat.add_comm]
    exact ih.append (single head)

/-- Elements that are the same just when their number is zero make lists of this kind. -/
theorem eq_iff {R : Nat → α → α → Prop} {as bs : List α}
    (hR : ∀ i a b, R i a b → (b = a ↔ i = 0)) (h : Summed R n as bs) : bs = as ↔ n = 0 := by
  induction h with
  | nil => simp
  | cons head tail ih =>
    have hhead := hR _ _ _ head
    rw [List.cons.injEq, hhead, ih]
    omega

theorem tail_eq {R : Nat → α → α → Prop} (hR : ∀ i a b, R i a b → (b = a ↔ i = 0))
    {xs as bs : List α} {a b : α} (hne : b ≠ a) (h : Summed R n (xs ++ a :: as) (xs ++ b :: bs))
    (hn : n = 1) : R 1 a b ∧ bs = as := by
  induction xs generalizing n with
  | nil =>
    cases h with
    | @cons i j _ _ _ _ head tail =>
      have hi : i ≠ 0 := fun hi => hne ((hR i a b head).mpr hi)
      obtain rfl : i = 1 := by omega
      exact ⟨head, (tail.eq_iff hR).mpr (by omega)⟩
  | cons x xs ih =>
    cases h with
    | @cons i j _ _ _ _ head tail =>
      have hi : i = 0 := (hR i x x head).mp rfl
      exact ih tail (by omega)

end Summed

theorem Paired.eq_iff {α : Type} {R : Nat → α → α → Prop} {n : Nat} {p q : α × α}
    (hR : ∀ i a b, R i a b → (b = a ↔ i = 0)) (h : Paired R n p q) : q = p ↔ n = 0 := by
  cases h with
  | mk fst snd =>
    have hfst := hR _ _ _ fst
    have hsnd := hR _ _ _ snd
    rw [Prod.mk.injEq, hfst, hsnd]
    omega

end VersionDrift
