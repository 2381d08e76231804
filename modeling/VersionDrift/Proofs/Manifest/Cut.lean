import VersionDrift.Proofs.Except
import VersionDrift.Proofs.Manifest.Place
import VersionDrift.Proofs.Text.Offset

/-!
# Keys and scalars at byte offsets

A key or a scalar may be cut out of a line by offsets alone: where a quote or a colon stands,
how many bytes blanks take, at which byte the quotes close. Each offset is the end of a text
that was read before, so no cut fails, on any text at all, and what is cut out is what reading
by characters gives.
-/

set_option autoImplicit false

namespace VersionDrift.Scanner

open Text (byteCount cut cutFrom cutTo offset? offsets)

theorem map_byteCount (s w : Text) (parts? : Option (Text × Text)) :
    ((parts?.map fun (part, rest) => (w ++ part, rest)).map
        fun (part, _) => byteCount s + byteCount part) =
      parts?.map fun (part, _) => byteCount (s ++ w) + byteCount part := by
  cases parts? with
  | none => rfl
  | some parts => simp [Nat.add_assoc]

section Key

def quotedKey (quote : Char) (t : Text) : Except Miscut (Option (Text × Nat)) := do
  match offset? quote (← cutFrom 1 t) with
  | none => return none
  | some i =>
    let close := i + 1
    let key ← cut 1 close t
    let rest ← cutFrom (close + 1) t
    let colon := close + 1 + (byteCount rest - byteCount (Text.trimStart rest))
    if (← cutFrom colon t).head? = some ':' then return some (key, colon + 1) else return none

def bareKey (t : Text) : Except Miscut (Option (Text × Nat)) := do
  match ← (offsets [':'] t).findM? fun i => do return Field.atGap (← cutFrom (i + 1) t) with
  | none => return none
  | some colon => return some (Text.trimEnd (← cutTo colon t), colon + 1)

def keyed (t : Text) : Except Miscut (Option (Text × Nat)) :=
  match t with
  | [] => return none
  | c :: _ =>
    if c = '"' || c = '\'' then quotedKey c t
    else if Field.beginsNoKey c then return none
    else bareKey t

def splitKey (t : Text) : Except Miscut (Option (Text × Nat)) := do
  match ← keyed t with
  | none => return none
  | some (key, after) =>
    if Field.atGap (← cutFrom after t) then return some (key, after) else return none

variable {quote : Char}

theorem quotedKey_eq_ok (hquote : quote.utf8Size = 1) (t : Text) : ∃ f? : Option Field,
    quotedKey quote (quote :: t) = .ok (f?.map fun f => (f.key, byteCount f.head)) ∧
      (∀ f ∈ f?, quote :: t = f.head ++ f.rest) ∧
      Field.quoted? quote t = f?.filter fun f => Field.atGap f.rest := by
  have hopen : cutFrom 1 (quote :: t) = .ok t :=
    Text.cutFrom_of_append (s := [quote]) rfl (by simp [hquote])
  simp only [quotedKey, Field.quoted?, hopen, ok_bind, Text.offset?_eq, Text.drop_length_takeWhile]
  cases hdrop : t.dropWhile (· ≠ quote) with
  | nil => exact ⟨none, rfl, by simp, rfl⟩
  | cons close r =>
    obtain ⟨rfl, ht⟩ := Text.dropWhile_ne_eq_cons hdrop
    generalize t.takeWhile (· ≠ close) = key at ht
    subst ht
    obtain ⟨hkey, hrest, hquoted⟩ := Text.cut_quoted hquote key r
    have hblanks : byteCount r - byteCount (Text.trimStart r) =
        byteCount (r.takeWhile Text.isBlank) := Text.byteCount_sub_dropWhile Text.isBlank r
    simp only [List.head?_cons, Option.map_some, hkey, hrest, hblanks, ok_bind]
    have hr := List.takeWhile_append_dropWhile (p := Text.isBlank) (l := r)
    generalize r.takeWhile Text.isBlank = gap at hr ⊢
    generalize r.dropWhile Text.isBlank = after at hr ⊢
    subst hr
    have hhead : byteCount (close :: key ++ [close] ++ gap) =
        byteCount key + 1 + 1 + byteCount gap := by rw [Text.byteCount_append, hquoted]
    have hcolon : cutFrom (byteCount key + 1 + 1 + byteCount gap)
        (close :: (key ++ close :: (gap ++ after))) = .ok after :=
      Text.cutFrom_of_append (by simp) hhead.symm
    rw [hcolon]
    cases after with
    | nil => exact ⟨none, rfl, by simp, rfl⟩
    | cons d rest =>
      by_cases hd : d = ':'
      · subst hd
        refine ⟨some ⟨key, close :: key ++ close :: gap ++ [':'], rest⟩, ?_, ?_, ?_⟩
        · have hlast : byteCount (close :: key ++ close :: gap ++ [':']) =
              byteCount key + 1 + 1 + byteCount gap + 1 := by
            rw [Text.byteCount_append, List.append_cons, hhead]
            rfl
          rw [ok_bind, List.head?_cons, if_pos rfl, Option.map_some, hlast]
          rfl
        · rintro f hf
          obtain rfl := Option.some.inj hf
          simp
        · rw [Option.filter_some]
          rfl
      · refine ⟨none, by simp [hd], by simp, ?_⟩
        simp [hd]

theorem findM?_eq (s t : Text) : ((offsets [':'] t).map (byteCount s + ·)).findM?
      (fun i => do return Field.atGap (← cutFrom (i + 1) (s ++ t))) =
    .ok ((Field.untilColon t).map fun (key, _) => byteCount s + byteCount key) := by
  induction t generalizing s with
  | nil => rfl
  | cons c t ih =>
    have hlater : ((offsets [':'] t).map (c.utf8Size + ·)).map (byteCount s + ·) =
        (offsets [':'] t).map (byteCount (s ++ [c]) + ·) := by
      rw [List.map_map]
      exact List.map_congr_left fun i _ => by
        simp [Nat.add_assoc]
    have hrest := ih (s ++ [c])
    rw [← map_byteCount, List.append_assoc] at hrest
    simp only [List.singleton_append] at hrest
    by_cases hc : c = ':'
    · subst hc
      have hthere : Text.startsWith [':'] (':' :: t) = true := rfl
      have hcut : cutFrom (byteCount s + 0 + 1) (s ++ ':' :: t) = .ok t :=
        Text.cutFrom_of_append (s := s ++ [':']) (by simp) (by rw [Text.byteCount_append]; rfl)
      rw [offsets, hthere]
      simp only [if_true, List.map_cons, hlater, List.findM?]
      rw [hcut, Field.untilColon, ok_bind, pure_eq_ok, ok_bind]
      cases Field.atGap t with
      | true => rfl
      | false => exact hrest
    · have hother : Text.startsWith [':'] (c :: t) = false := by
        simp [hc]
      rw [Field.untilColon, if_neg (by simp [hc]), offsets, hother]
      simpa only [Bool.false_eq_true, if_false, hlater] using hrest

theorem bareKey_eq (t : Text) :
    bareKey t = .ok ((Field.bare? t).map fun f => (f.key, byteCount f.head)) := by
  have hfind := findM?_eq [] t
  have hsame : (offsets [':'] t).map (byteCount [] + ·) = offsets [':'] t := by
    simp
  rw [hsame, List.nil_append] at hfind
  rw [bareKey, hfind, ok_bind, Field.bare?]
  cases hcolon : Field.untilColon t with
  | none => rfl
  | some split =>
    obtain ⟨key, rest⟩ := split
    obtain ⟨ht, -⟩ := Field.untilColon_eq_some hcolon
    have hcut : cutTo (byteCount [] + byteCount key) t = .ok key :=
      Text.cutTo_of_append ht (by simp)
    have hlast : byteCount (key ++ [':']) = byteCount [] + byteCount key + 1 := by
      rw [Text.byteCount_append, Text.byteCount_nil, Nat.zero_add]
      rfl
    simp only [Option.map_some, hcut, ok_bind, hlast]
    rfl

theorem keyed_eq_ok (t : Text) : ∃ f? : Option Field,
    keyed t = .ok (f?.map fun f => (f.key, byteCount f.head)) ∧
      (∀ f ∈ f?, t = f.head ++ f.rest) ∧
      Field.ofText? t = f?.filter fun f => Field.atGap f.rest := by
  cases t with
  | nil => exact ⟨none, rfl, by simp, rfl⟩
  | cons c t =>
    simp only [keyed, Field.ofText?]
    split
    · next hc =>
      have hquote : c.utf8Size = 1 := by
        simp only [Bool.or_eq_true, decide_eq_true_eq] at hc
        rcases hc with rfl | rfl <;> decide
      exact quotedKey_eq_ok hquote t
    split
    · exact ⟨none, rfl, by simp, rfl⟩
    · refine ⟨_, bareKey_eq (c :: t), fun f hf => ?_, ?_⟩
      · obtain ⟨⟨key, rest⟩, hcolon, rfl⟩ := Option.map_eq_some_iff.mp hf
        simpa using (Field.untilColon_eq_some hcolon).1
      · cases hbare : Field.bare? (c :: t) with
        | none => rfl
        | some f =>
          obtain ⟨⟨key, rest⟩, hcolon, rfl⟩ := Option.map_eq_some_iff.mp hbare
          rw [Option.filter_some, if_pos (Field.untilColon_eq_some hcolon).2]

/-- A key and its colon are cut off where the field ends. -/
theorem splitKey_eq (t : Text) :
    splitKey t = .ok ((Field.ofText? t).map fun f => (f.key, byteCount f.head)) := by
  obtain ⟨f?, hkeyed, happend, hfield⟩ := keyed_eq_ok t
  rw [splitKey, hkeyed, hfield, ok_bind]
  cases f? with
  | none => rfl
  | some f =>
    have hcut : cutFrom (byteCount f.head) t = .ok f.rest :=
      Text.cutFrom_of_append (happend f rfl) rfl
    simp only [Option.map_some, hcut, ok_bind, Option.filter_some]
    split <;> rfl

end Key

section Token

def closing (bytes : List UInt8) (i : Nat) : Option Nat :=
  if h : i < bytes.length then
    if bytes[i] = 0x27 then
      if bytes[i + 1]? = some 0x27 then closing bytes (i + 2) else some i
    else closing bytes (i + 1)
  else none
termination_by bytes.length - i

def scanDouble (t : Text) : Except Miscut (Except Form (Nat × Style × Text)) := do
  match offset? '"' (← cutFrom 1 t) with
  | none => return .error .multiLineQuoted
  | some i =>
    let close := i + 1
    let inner ← cut 1 close t
    if '\\' ∈ inner then return .error .escapes else return .ok (close + 1, .double, inner)

def scanSingle (t : Text) : Except Miscut (Except Form (Nat × Style × Text)) := do
  match closing (Text.bytes t) 1 with
  | none => return .error .multiLineQuoted
  | some close => return .ok (close + 1, .single, Scalar.unquoted (← cut 1 close t))

def scanPlain (t : Text) : Except Miscut (Except Form (Nat × Style × Text)) := do
  let stop := ((offsets [' ', '#'] t ++ offsets ['\t', '#'] t).min?).getD (byteCount t)
  let value := Text.dropEndWhile Text.isGap (← cutTo stop t)
  return .ok (byteCount value, .plain, value)

def scanToken (t : Text) : Except Miscut (Except Form (Nat × Style × Text)) :=
  match t with
  | [] => return .error .multiLine
  | c :: _ =>
    if c = '#' then return .error .multiLine
    else if c = '|' || c = '>' then return .error .blockScalar
    else if c = '&' || c = '*' then return .error .anchorOrAlias
    else if c = '!' then return .error .tag
    else if c = '{' || c = '[' then return .error .flowCollection
    else if c = '"' then scanDouble t
    else if c = '\'' then scanSingle t
    else scanPlain t

theorem min?_map_add (k : Nat) (ns : List Nat) :
    (ns.map (k + ·)).min? = ns.min?.map (k + ·) := by
  cases hmin : ns.min? with
  | none =>
    rw [List.min?_eq_none_iff] at hmin
    rw [hmin]
    rfl
  | some n =>
    obtain ⟨hmem, hle⟩ := List.min?_eq_some_iff.mp hmin
    refine List.min?_eq_some_iff.mpr ⟨List.mem_map_of_mem hmem, fun m hm => ?_⟩
    obtain ⟨i, hi, rfl⟩ := List.mem_map.mp hm
    exact Nat.add_le_add_left (hle i hi) k

theorem getD_min?_eq (t : Text) :
    ((offsets [' ', '#'] t ++ offsets ['\t', '#'] t).min?).getD (byteCount t) =
      byteCount (Scalar.uncommented t) := by
  induction t with
  | nil => rfl
  | cons c t ih =>
    rw [Scalar.uncommented]
    split
    · next hcomment =>
      obtain ⟨hgap, hhead⟩ : (c = ' ' ∨ c = '\t') ∧ t.head? = some '#' := by
        simpa [Text.isGap] using hcomment
      have hzero : 0 ∈ offsets [' ', '#'] (c :: t) ++ offsets ['\t', '#'] (c :: t) := by
        rcases hgap with rfl | rfl <;> simp [offsets, hhead]
      rw [List.min?_eq_some_iff.mpr ⟨hzero, fun n _ => Nat.zero_le n⟩]
      rfl
    · next hcomment =>
      have hspace : Text.startsWith [' ', '#'] (c :: t) = false :=
        Bool.eq_false_iff.mpr fun h => hcomment (by simp_all [Text.isGap])
      have htab : Text.startsWith ['\t', '#'] (c :: t) = false :=
        Bool.eq_false_iff.mpr fun h => hcomment (by simp_all [Text.isGap])
      simp only [offsets, hspace, htab, Bool.false_eq_true, if_false, ← List.map_append,
        min?_map_add]
      rw [Text.byteCount_cons, Text.byteCount_cons, ← ih]
      cases (offsets [' ', '#'] t ++ offsets ['\t', '#'] t).min? <;> rfl

theorem closing_of_other {bytes : List UInt8} {i : Nat} {b : UInt8} (hi : bytes[i]? = some b)
    (hb : b ≠ 0x27) : closing bytes i = closing bytes (i + 1) := by
  obtain ⟨hlt, rfl⟩ := List.getElem?_eq_some_iff.mp hi
  rw [closing, dif_pos hlt, if_neg hb]

theorem closing_append {s t r : List UInt8} (h : 0x27 ∉ t) :
    closing (s ++ t ++ r) s.length = closing (s ++ t ++ r) (s ++ t).length := by
  induction t generalizing s with
  | nil => rw [List.append_nil]
  | cons b t ih =>
    obtain ⟨hb, ht⟩ := not_or.mp (mt List.mem_cons.mpr h)
    have hrest := ih (s := s ++ [b]) ht
    rw [List.append_assoc s [b] t, List.singleton_append] at hrest
    rw [closing_of_other (b := b) (by simp) (Ne.symm hb), ← hrest]
    simp

theorem closing_quote (s t : List UInt8) : closing (s ++ 0x27 :: t) s.length =
    if t.head? = some 0x27 then closing (s ++ 0x27 :: t) (s.length + 2) else some s.length := by
  have hnext : (s ++ 0x27 :: t)[s.length + 1]? = t.head? := by
    rw [List.getElem?_append_right (by omega), List.head?_eq_getElem?]
    simp
  rw [closing, dif_pos (by simp), if_pos (by simp), hnext]

theorem closing_eq (s t : Text) : closing (Text.bytes (s ++ t)) (byteCount s) =
    (Scalar.untilQuote t).map fun (inner, _) => byteCount s + byteCount inner := by
  have hbyte : String.utf8EncodeChar '\'' = [0x27] := by decide
  have hsize : Char.utf8Size '\'' = 1 := by decide
  fun_induction Scalar.untilQuote t generalizing s with
  | case1 =>
    rw [closing, dif_neg (by simp [Text.length_bytes])]
    rfl
  | case2 t ih =>
    have hbytes : Text.bytes (s ++ '\'' :: '\'' :: t) =
        Text.bytes s ++ 0x27 :: 0x27 :: Text.bytes t := by
      rw [Text.bytes_append, Text.bytes_cons, Text.bytes_cons, hbyte]
      rfl
    have hcount : byteCount (s ++ ['\'', '\'']) = byteCount s + 2 := by
      rw [Text.byteCount_append]
      simp [hsize]
    have hrest := ih (s ++ ['\'', '\''])
    rw [← map_byteCount, hcount, List.append_assoc] at hrest
    have hpair := closing_quote (Text.bytes s) (0x27 :: Text.bytes t)
    rw [List.head?_cons, if_pos rfl, ← hbytes, Text.length_bytes] at hpair
    exact hpair.trans hrest
  | case3 t hdouble =>
    have hhead : t.head? ≠ some '\'' := by
      cases t with
      | nil => simp
      | cons d t => exact fun hd => hdouble t (by rw [Option.some.inj hd])
    have hclose := closing_quote (Text.bytes s) (Text.bytes t)
    rw [if_neg (Text.head?_bytes hhead), Text.length_bytes] at hclose
    rw [Text.bytes_append, Text.bytes_cons, hbyte]
    exact hclose
  | case4 c t hdouble hquote ih =>
    have hbytes : Text.bytes (s ++ c :: t) =
        Text.bytes s ++ String.utf8EncodeChar c ++ Text.bytes t := by
      rw [Text.bytes_append, Text.bytes_cons, List.append_assoc]
    have hcount : byteCount (s ++ [c]) = (Text.bytes s ++ String.utf8EncodeChar c).length := by
      rw [Text.byteCount_append, List.length_append, Text.length_bytes,
        String.length_utf8EncodeChar]
      rfl
    have hrest := ih (s ++ [c])
    rw [← map_byteCount, hcount, List.append_assoc] at hrest
    have hc : 0x27 ∉ String.utf8EncodeChar c := fun hmem =>
      hquote (Text.eq_quote_of_mem_utf8EncodeChar hmem)
    have hskip := closing_append (s := Text.bytes s) (r := Text.bytes t) hc
    rw [← hbytes, Text.length_bytes] at hskip
    exact hskip.trans hrest

/-- A token is told by its bytes where scanning by characters tells its text and what follows. -/
def measured (r : Text × Style × Text × Text) : Nat × Style × Text :=
  (byteCount r.1, r.2.1, r.2.2.1)

theorem scanDouble_eq (t : Text) :
    scanDouble ('"' :: t) = .ok ((Scalar.scanToken ('"' :: t)).map measured) := by
  have hopen : cutFrom 1 ('"' :: t) = .ok t := Text.cutFrom_of_append (s := ['"']) rfl (by decide)
  simp only [scanDouble, Scalar.scanToken, hopen, ok_bind, Text.offset?_eq,
    Text.drop_length_takeWhile]
  cases hdrop : t.dropWhile (· ≠ '"') with
  | nil => rfl
  | cons close r =>
    obtain ⟨rfl, ht⟩ := Text.dropWhile_ne_eq_cons hdrop
    generalize t.takeWhile (· ≠ '"') = inner at ht
    subst ht
    have hquote : Char.utf8Size '"' = 1 := by decide
    obtain ⟨hinner, -, hlast⟩ := Text.cut_quoted hquote inner r
    simp only [List.head?_cons, Option.map_some, hinner, ok_bind]
    by_cases hescape : '\\' ∈ inner
    · simp [hescape]
    · rw [if_neg hescape, if_neg hescape, ← hlast]
      rfl

theorem scanSingle_eq (t : Text) :
    scanSingle ('\'' :: t) = .ok ((Scalar.scanToken ('\'' :: t)).map measured) := by
  have hclosing : closing (Text.bytes ('\'' :: t)) 1 =
      (Scalar.untilQuote t).map fun (inner, _) => 1 + byteCount inner := closing_eq ['\''] t
  simp only [scanSingle, Scalar.scanToken, hclosing]
  cases huntil : Scalar.untilQuote t with
  | none => rfl
  | some parts =>
    obtain ⟨inner, after⟩ := parts
    obtain ⟨rfl, -⟩ := Scalar.untilQuote_eq_some huntil
    have hquote : Char.utf8Size '\'' = 1 := by decide
    obtain ⟨hinner, -, hlast⟩ := Text.cut_quoted hquote inner after
    simp only [Option.map_some, Nat.add_comm 1, hinner, ok_bind, ← hlast]
    rfl

theorem scanPlain_eq (t : Text) : scanPlain t =
    .ok (.ok (byteCount (Text.dropEndWhile Text.isGap (Scalar.uncommented t)), .plain,
      Text.dropEndWhile Text.isGap (Scalar.uncommented t))) := by
  obtain ⟨s, ht, -⟩ := Scalar.uncommented_append t
  rw [scanPlain, getD_min?_eq, Text.cutTo_of_append ht rfl]
  rfl

/-- The token takes as many bytes as it has by characters. -/
theorem scanToken_eq (t : Text) : scanToken t = .ok ((Scalar.scanToken t).map measured) := by
  cases t with
  | nil => rfl
  | cons c t =>
    by_cases hdouble : c = '"'
    · subst hdouble
      exact scanDouble_eq t
    by_cases hsingle : c = '\''
    · subst hsingle
      exact scanSingle_eq t
    simp only [scanToken, Scalar.scanToken, if_neg hdouble, if_neg hsingle, scanPlain_eq]
    repeat' split
    all_goals rfl

end Token

structure Span where
  start : Nat
  stop : Nat
  style : Style
  value : Text
deriving DecidableEq, Repr

def Span.ofScalar (base : Nat) (s : Scalar) : Span :=
  ⟨base + byteCount s.gap, base + byteCount (s.gap ++ s.token), s.style, s.value⟩

def scanScalar (rest : Text) (base : Nat) : Except Miscut (Except Unlocated Span) := do
  let lead := byteCount rest - byteCount (rest.dropWhile Text.isGap)
  let t ← cutFrom lead rest
  match ← scanToken t with
  | .error form => return .error (.unsupported form)
  | .ok (length, style, value) =>
    if Scalar.isNoise (← cutFrom length t) then
      return .ok ⟨base + lead, base + lead + length, style, value⟩
    else return .error (.unsupported .trailingContent)

theorem scanScalar_eq (rest : Text) (base : Nat) : scanScalar rest base =
    .ok (((Scalar.scan rest).mapError Unlocated.unsupported).map (Span.ofScalar base)) := by
  have hlead : cutFrom (byteCount (rest.takeWhile Text.isGap)) rest =
      .ok (rest.dropWhile Text.isGap) :=
    Text.cutFrom_of_append List.takeWhile_append_dropWhile.symm rfl
  simp only [scanScalar, Text.byteCount_sub_dropWhile, hlead, ok_bind, scanToken_eq, Scalar.scan]
  cases htoken : Scalar.scanToken (rest.dropWhile Text.isGap) with
  | error form => rfl
  | ok r =>
    obtain ⟨token, style, value, after⟩ := r
    have hgap : ∀ c ∈ (rest.dropWhile Text.isGap).head?, Text.isGap c = false :=
      fun c hc => Text.of_mem_head?_dropWhile hc
    obtain ⟨ht, -⟩ := Scalar.scanToken_eq_ok hgap htoken
    have hafter : cutFrom (byteCount token) (rest.dropWhile Text.isGap) = .ok after :=
      Text.cutFrom_of_append ht rfl
    simp only [map_ok, measured, hafter, ok_bind]
    by_cases hnoise : Scalar.isNoise after = true
    · have hstop : base + byteCount (rest.takeWhile Text.isGap ++ token) =
          base + byteCount (rest.takeWhile Text.isGap) + byteCount token := by
        rw [Text.byteCount_append, Nat.add_assoc]
      simp only [if_pos hnoise, ← hstop]
      rfl
    · simp only [if_neg hnoise]
      rfl

end VersionDrift.Scanner
