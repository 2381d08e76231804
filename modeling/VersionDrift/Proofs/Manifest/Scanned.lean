import VersionDrift.Proofs.Yaml.Ending
import VersionDrift.Proofs.Yaml.OneEntry

/-!
# Lines and documents

A scalar that is found on the rest of a line is the one that the rest of the line means
in a document: the line scanner and the reader of documents agree, wherever neither of
them refuses the text.
-/

set_option autoImplicit false

namespace VersionDrift

open Yaml

namespace Yaml.Layout

def afterKey (t : Text) : Layout :=
  ⟨⟨t, 0, 2⟩, [0], none, [], false, [.value, .scalar ['k'] .plain, .key, .blockMappingStart]⟩

theorem reads_afterKey {c : Char} (hc : Text.isGap c = true) (t : Text) :
    Reads ('k' :: ':' :: c :: t) (afterKey (c :: t)) := by
  simp only [Text.isGap, Bool.or_eq_true, decide_eq_true_eq] at hc
  have hkey : Reads ('k' :: ':' :: c :: t)
      ⟨⟨':' :: c :: t, 0, 1⟩, [], some ⟨0, false, 0, 0⟩, [], false, [.scalar ['k'] .plain]⟩ := by
    rcases hc with rfl | rfl
    · exact .next .start rfl
    · exact .next .start rfl
  rcases hc with rfl | rfl
  · exact .next hkey rfl
  · exact .next hkey rfl

theorem awaitsScalar_afterKey (t : Text) : (afterKey t).AwaitsScalar where
  candidate := rfl
  outer := rfl
  keyAllowed := rfl
  inside := by simp [afterKey]
  column := by simp [afterKey]

theorem ofTokens_stray {u : Token} (hu : isStray u = true) (ts : List Token) :
    Document.ofTokens (.blockMappingStart :: .key :: .scalar ['k'] .plain :: .value :: u :: ts) =
      .error .expectedNode := by
  simp only [isStray, Bool.or_eq_true, decide_eq_true_eq] at hu
  rcases hu with (rfl | rfl) | rfl
  · rfl
  · rfl
  · rfl

end Yaml.Layout

namespace Scalar

variable {rest : Text} {s : Scalar}

theorem atLineEnd_of_isNoise {t : Text} (h : isNoise t = true) :
    atLineEnd (t ++ ['\n']) = true := by
  have hblanks (c : Char) (hc : c ∈ t.takeWhile Text.isGap) : Yaml.isBlank c = true :=
    List.all_eq_true.mp List.all_takeWhile c hc
  rw [← List.takeWhile_append_dropWhile (p := Text.isGap) (l := t), List.append_assoc,
    atLineEnd_append hblanks]
  unfold isNoise at h
  split at h
  · next hnil =>
    rw [hnil]
    rfl
  · next c u hcons =>
    obtain rfl : c = '#' := by simpa using h
    rw [hcons]
    rfl

theorem run_of_scan_quoted (hscan : scan rest = .ok s) (hstyle : s.style ≠ .plain)
    (hline : ∀ c ∈ rest, isBreak c = false) {q : Layout} (hq : q.AwaitsScalar)
    (hrest : q.cursor.rest = rest ++ ['\n']) :
    q.run 2 = .ok (q.lastTokens s.value (scalarStyle s.style)) := by
  obtain ⟨hcut, hgap, hspells, hnoise, -, -⟩ := scan_eq_ok hscan
  have hend := atLineEnd_of_isNoise hnoise
  have htoken (c : Char) (hc : c ∈ s.token) : isBreak c = false := hline c (by rw [hcut]; simp [hc])
  have hafter (c : Char) (hc : c ∈ s.after) : isBreak c = false := hline c (by rw [hcut]; simp [hc])
  have hquote : (s.after ++ ['\n']).head? ≠ some '\'' := by
    cases hr : s.after with
    | nil => decide
    | cons c r =>
      intro hc
      obtain rfl : c = '\'' := Option.some.inj hc
      rw [hr] at hnoise
      cases hnoise
  have hread := QuotedScalar.read_spelled hspells hstyle htoken fun _ => hquote
  rw [hcut, List.append_assoc, List.append_assoc] at hrest
  cases hspells' : s.style with
  | plain => exact absurd hspells' hstyle
  | single =>
    rw [hspells'] at hspells hread
    generalize s.token = token at *
    cases hspells with
    | single value => exact hq.run_quoted hgap true hrest hread hafter hend
  | double =>
    rw [hspells'] at hspells hread
    generalize s.token = token at *
    generalize s.value = value at *
    cases hspells with
    | double => exact hq.run_quoted hgap false hrest hread hafter hend

/-- Where a bare token stands a plain scalar is read to its end. Else the reading fails, or a token
that belongs to a flow collection comes first. -/
theorem run_of_scan_plain (hscan : scan rest = .ok s) (hstyle : s.style = .plain)
    (hline : ∀ c ∈ rest, isBreak c = false) {q : Layout} (hq : q.AwaitsScalar)
    (hrest : q.cursor.rest = rest ++ ['\n']) {n : Nat}
    {ts : List Token} (hrun : q.run n = .ok ts) :
    q.run 2 = .ok (q.lastTokens s.value .plain) ∨
      ∃ u, Layout.isStray u = true ∧ (u :: q.emitted).reverse <+: ts := by
  obtain ⟨hcut, hgap, hspells, hnoise, hprecede, hfree⟩ := scan_eq_ok hscan
  have hend := atLineEnd_of_isNoise hnoise
  have htoken (c : Char) (hc : c ∈ s.token) : isBreak c = false := hline c (by rw [hcut]; simp [hc])
  have hafter (c : Char) (hc : c ∈ s.after) : isBreak c = false := hline c (by rw [hcut]; simp [hc])
  rw [hcut, List.append_assoc, List.append_assoc] at hrest
  have hfree := hfree hstyle
  rw [hstyle] at hspells hprecede
  generalize s.token = token at *
  generalize s.value = value at *
  cases hspells with
  | @plain c t hbegins hlast =>
    have hgap' : Text.isGap c = false ∧ c ≠ '#' := by
      simp only [beginsNoValue, Bool.or_eq_false_iff, decide_eq_false_iff_not, List.mem_cons,
        not_or] at hbegins
      exact ⟨hbegins.2, hbegins.1.1⟩
    obtain ⟨hhere, hnext⟩ := hq.next (t := t ++ (s.after ++ ['\n'])) hgap hrest hgap'.1
      (htoken c (by simp)) hgap'.2
    rcases hhere.token_cases hbegins with ⟨hstart, hdash⟩ | ⟨e, he⟩ | ⟨u, r, hu, hr, hover⟩
    · refine .inl ((hq.run_plain hgap hrest hstart hdash htoken hfree hlast hafter hend
        hprecede).resolve_right ?_)
      rintro ⟨-, herror⟩
      obtain ⟨e, he⟩ := herror n
      rw [hrun] at he
      cases he
    · cases n with
      | zero => cases hrun
      | succ n =>
        unfold Layout.run at hrun
        rw [hnext, he] at hrun
        cases hrun
    · cases n with
      | zero => cases hrun
      | succ n =>
        rw [hq.run_token hgap hrest hgap'.1 (htoken c (by simp)) hgap'.2 hr] at hrun
        exact .inr ⟨u, hu, hover.of_run hrun⟩

/-- A line that both accept has one meaning: the scalar that is found on it is the value of the only
entry, a string when it stands in quotes, and what a plain scalar means otherwise. -/
theorem value_of_scan {c : Char} {t : Text} {x : Value} (hc : Text.isGap c = true)
    (hline : ∀ d ∈ c :: t, breaksLine d = false) (hscan : scan (c :: t) = .ok s)
    (hx : Value.ofText ("k:".toList ++ (c :: t) ++ ['\n']) = .ok x) :
    ∃ y, x = .mapping [(.string ['k'], y)] ∧
      (s.style = .plain → Resolution.plain s.value = .ok y) ∧
      (s.style ≠ .plain → y = .string s.value) := by
  obtain ⟨doc, hdoc, hvalue⟩ := bind_eq_ok hx
  obtain ⟨ts, hts, hdoc⟩ := bind_eq_ok hdoc
  obtain ⟨-, n, hrun⟩ := Token.ofText_eq_ok.mp hts
  have htext : unifyBreaks ("k:".toList ++ (c :: t) ++ ['\n']) =
      'k' :: ':' :: c :: (t ++ ['\n']) := by
    have hall : ∀ d ∈ "k:".toList ++ (c :: t), breaksLine d = false :=
      List.forall_mem_append.mpr ⟨by simp [breaksLine, isBreak], hline⟩
    rw [unifyBreaks_append hall]
    rfl
  rw [htext] at hrun
  obtain ⟨n, hrun⟩ := (Layout.reads_afterKey hc (t ++ ['\n'])).run hrun
  have hbreaks (d : Char) (hd : d ∈ c :: t) : isBreak d = false :=
    isBreak_of_breaksLine (hline d hd)
  have hread : (Layout.afterKey (c :: (t ++ ['\n']))).run 2 =
      .ok ((Layout.afterKey []).lastTokens s.value (scalarStyle s.style)) := by
    by_cases hstyle : s.style = .plain
    · rcases run_of_scan_plain hscan hstyle hbreaks (Layout.awaitsScalar_afterKey _) rfl hrun with
        hread | ⟨u, hu, us, rfl⟩
      · rw [hstyle]
        exact hread
      · cases (Layout.ofTokens_stray hu us).symm.trans hdoc
    · exact run_of_scan_quoted hscan hstyle hbreaks (Layout.awaitsScalar_afterKey _) rfl
  obtain rfl : ts = (Layout.afterKey []).lastTokens s.value (scalarStyle s.style) :=
    Except.ok.inj ((Layout.run_of_length_lt hrun (Nat.lt_succ_self _)).symm.trans
      (Layout.run_of_length_lt hread (Nat.lt_succ_self _)))
  obtain rfl : doc = ⟨.mapping none [(.scalar none ['k'] .plain,
      .scalar none s.value (scalarStyle s.style))], .empty, 4⟩ :=
    Except.ok.inj (hdoc.symm.trans rfl)
  change StateT.run' (Resolution.value _ (127 + 1) false _) _ = _ at hvalue
  rw [StateT.run'_eq, Resolution.run_entry _ _ rfl, Resolution.run_scalar] at hvalue
  cases hy : Resolution.scalar false none s.value (scalarStyle s.style) with
  | error e =>
    rw [hy] at hvalue
    cases hvalue
  | ok y =>
    rw [hy] at hvalue
    obtain rfl := Except.ok.inj hvalue
    refine ⟨y, rfl, fun hstyle => ?_, fun hstyle => ?_⟩
    · rw [hstyle] at hy
      exact (Resolution.scalar_plain s.value).symm.trans hy
    · cases hs : s.style with
      | plain => exact absurd hs hstyle
      | single =>
        rw [hs] at hy
        exact (Except.ok.inj hy).symm
      | double =>
        rw [hs] at hy
        exact (Except.ok.inj hy).symm

theorem value_of_scan_marks :
    (scan " 12 # x".toList = .ok ⟨[' '], "12".toList, " # x".toList, .plain, "12".toList⟩ ∧
      ∃ y, Value.ofText "k: 12 # x\n".toList = .ok (.mapping [(.string ['k'], y)]) ∧
        Resolution.plain "12".toList = .ok y) ∧
    (scan "\t'a''b'".toList = .ok ⟨['\t'], "'a''b'".toList, [], .single, "a'b".toList⟩ ∧
      Value.ofText "k:\t'a''b'\n".toList =
        .ok (.mapping [(.string ['k'], .string "a'b".toList)])) := by
  constructor
  · have hscan : scan " 12 # x".toList =
        .ok ⟨[' '], "12".toList, " # x".toList, .plain, "12".toList⟩ := by decide
    have hvalue : (Value.ofText "k: 12 # x\n".toList).toOption.isSome = true := by decide +kernel
    obtain ⟨x, hx⟩ := Option.isSome_iff_exists.mp hvalue
    have hline : ∀ c ∈ " 12 # x".toList, breaksLine c = false := by simp [breaksLine, isBreak]
    obtain ⟨y, rfl, hplain, -⟩ := value_of_scan rfl hline hscan (eq_ok_of_toOption hx)
    exact ⟨hscan, y, eq_ok_of_toOption hx, hplain rfl⟩
  · have hscan : scan "\t'a''b'".toList =
        .ok ⟨['\t'], "'a''b'".toList, [], .single, "a'b".toList⟩ := by decide
    have hvalue : (Value.ofText "k:\t'a''b'\n".toList).toOption.isSome = true := by decide +kernel
    obtain ⟨x, hx⟩ := Option.isSome_iff_exists.mp hvalue
    have hline : ∀ c ∈ "\t'a''b'".toList, breaksLine c = false := by simp [breaksLine, isBreak]
    obtain ⟨y, rfl, -, hstring⟩ := value_of_scan rfl hline hscan (eq_ok_of_toOption hx)
    obtain rfl := hstring (by decide)
    exact ⟨hscan, eq_ok_of_toOption hx⟩

end Scalar
end VersionDrift
