/-!
# Text

A text is a list of characters. The functions here cut a text at a literal
piece, and measure it in the bytes of its UTF-8 form.
-/

set_option autoImplicit false

namespace VersionDrift

abbrev Text := List Char

namespace Text

/-- What follows `stem` when the text begins with it. -/
def after? : Text → Text → Option Text
  | [], t => some t
  | _ :: _, [] => none
  | c :: stem, d :: t => if c = d then after? stem t else none

theorem after?_eq_some {stem t r : Text} : after? stem t = some r ↔ t = stem ++ r := by
  induction stem generalizing t with
  | nil => simp [after?, eq_comm]
  | cons c stem ih =>
    cases t with
    | nil => simp [after?]
    | cons d t =>
      by_cases h : c = d
      · simp [after?, h, ih]
      · simp [after?, h, Ne.symm h]

def startsWith (stem t : Text) : Bool := (after? stem t).isSome

@[simp] theorem startsWith_nil (t : Text) : startsWith [] t = true := rfl

@[simp] theorem startsWith_cons_cons (c d : Char) (s t : Text) :
    startsWith (c :: s) (d :: t) = (decide (d = c) && startsWith s t) := by
  by_cases h : d = c
  · simp [startsWith, after?, h]
  · simp [startsWith, after?, h, Ne.symm h]

@[simp] theorem startsWith_singleton (c : Char) (t : Text) :
    startsWith [c] t = decide (t.head? = some c) := by
  cases t with
  | nil => rfl
  | cons d t => simp

/-- The text before the first place where `piece` stands; all of it when there is none. -/
def before (piece : Text) : Text → Text
  | [] => []
  | c :: t => if startsWith piece (c :: t) then [] else c :: before piece t

/-- How many bytes the text takes in UTF-8. -/
def byteCount : Text → Nat
  | [] => 0
  | c :: t => c.utf8Size + byteCount t

@[simp] theorem byteCount_nil : byteCount [] = 0 := rfl

@[simp] theorem byteCount_cons (c : Char) (t : Text) :
    byteCount (c :: t) = c.utf8Size + byteCount t := rfl

@[simp] theorem byteCount_append (s t : Text) : byteCount (s ++ t) = byteCount s + byteCount t := by
  induction s with
  | nil => simp
  | cons c s ih => simp [ih, Nat.add_assoc]

def joined (sep : Text) : List Text → Text
  | [] => []
  | [t] => t
  | t :: ts => t ++ sep ++ joined sep ts

@[simp] theorem joined_singleton (sep t : Text) : joined sep [t] = t := rfl

/-- The text cut at every `c`, which belongs to no piece; never the empty list. -/
def splitAt (c : Char) : Text → List Text
  | [] => [[]]
  | d :: t =>
    if d = c then [] :: splitAt c t
    else match splitAt c t with
      | [] => [[d]]
      | piece :: pieces => (d :: piece) :: pieces

def replaceChar (c : Char) (by_ : Text) : Text → Text
  | [] => []
  | d :: t => if d = c then by_ ++ replaceChar c by_ t else d :: replaceChar c by_ t

@[simp] theorem replaceChar_nil (c : Char) (by_ : Text) : replaceChar c by_ [] = [] := rfl

@[simp] theorem replaceChar_cons_self (c : Char) (by_ t : Text) :
    replaceChar c by_ (c :: t) = by_ ++ replaceChar c by_ t := if_pos rfl

@[simp] theorem replaceChar_cons_of_ne {c d : Char} (h : d ≠ c) (by_ t : Text) :
    replaceChar c by_ (d :: t) = d :: replaceChar c by_ t := if_neg h

/-- The order by the first characters that differ. -/
def precedes : Text → Text → Bool
  | _, [] => false
  | [], _ :: _ => true
  | c :: s, d :: t => c < d || (c = d && precedes s t)

end Text
end VersionDrift
