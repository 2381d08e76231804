import VersionDrift.Proofs.Manifest.Tokens
import VersionDrift.Proofs.Yaml.Ending
import VersionDrift.Proofs.Yaml.OneEntry
import VersionDrift.Proofs.Yaml.Pointed

/-!
# Written versions read back

Whatever a version is, and in whichever style it is written: a manifest with nothing else
has it as its version. Quotes keep any text on one line. A text that is safe to write bare
is one plain scalar, and with its two points it is a string.
-/

set_option autoImplicit false

namespace VersionDrift

open Yaml

namespace Style

variable {v : Text} {c : Char}

theorem mem_of_mem_encode {style : Style} (h : c ∈ style.encode v) :
    c ∈ v ∨ c ∈ ['\'', '"', '\\'] := by
  have hdouble (h : c ∈ doubleQuoted v) : c ∈ v ∨ c ∈ ['\'', '"', '\\'] := by
    simp only [doubleQuoted, List.cons_append, List.mem_cons, List.mem_append, List.not_mem_nil,
      or_false] at h
    rcases h with rfl | h | rfl
    · exact .inr (by decide)
    · rcases Text.mem_of_mem_replaceChar h with h | h
      · rcases Text.mem_of_mem_replaceChar h with h | h
        · exact .inl h
        · exact .inr (by grind)
      · exact .inr (by grind)
    · exact .inr (by decide)
  cases style with
  | plain =>
    rw [encode] at h
    split at h
    · exact .inl h
    · exact hdouble h
  | single =>
    simp only [encode, singleQuoted, List.cons_append, List.mem_cons, List.mem_append,
      List.not_mem_nil, or_false] at h
    rcases h with rfl | h | rfl
    · exact .inr (by decide)
    · rcases Text.mem_of_mem_replaceChar h with h | h
      · exact .inl h
      · exact .inr (by simp_all)
    · exact .inr (by decide)
  | double => exact hdouble h

theorem ne_of_isBareCharacter (hc : isBareCharacter c = true) (d : Char)
    (hd : isBareCharacter d = false) : c ≠ d := by
  rintro rfl
  rw [hc] at hd
  cases hd

theorem isBlank_of_isBareCharacter (hc : isBareCharacter c = true) : Yaml.isBlank c = false := by
  simp [Yaml.isBlank, ne_of_isBareCharacter hc ' ' rfl, ne_of_isBareCharacter hc '\t' rfl]

theorem isBreak_of_isBareCharacter (hc : isBareCharacter c = true) : isBreak c = false := by
  simp [isBreak, ne_of_isBareCharacter hc '\n' rfl, ne_of_isBareCharacter hc '\u2028' rfl,
    ne_of_isBareCharacter hc '\u2029' rfl]

theorem isLine_of_isBareCharacter (hc : isBareCharacter c = true) :
    isAllowed c = true ∧ breaksLine c = false := by
  constructor
  · have hrange : 0x20 ≤ c.toNat ∧ c.toNat ≤ 0x7E := by
      change (decide ('A'.val ≤ c.val ∧ c.val ≤ 'Z'.val) || ('a'.val ≤ c.val && c.val ≤ 'z'.val) ||
        ('0'.val ≤ c.val && c.val ≤ '9'.val) || c = '.' || c = '_' || c = '+' || c = '-') =
          true at hc
      simp only [Bool.or_eq_true, Bool.and_eq_true, decide_eq_true_eq, UInt32.le_iff_toNat_le] at hc
      rcases hc with (((((hc | hc) | hc) | rfl) | rfl) | rfl) | rfl
      · exact ⟨Nat.le_trans (by decide) hc.1, Nat.le_trans hc.2 (by decide)⟩
      · exact ⟨Nat.le_trans (by decide) hc.1, Nat.le_trans hc.2 (by decide)⟩
      · exact ⟨Nat.le_trans (by decide) hc.1, Nat.le_trans hc.2 (by decide)⟩
      all_goals decide
    simp only [isAllowed, Bool.or_eq_true, Bool.and_eq_true, decide_eq_true_eq]
    omega
  · simp [breaksLine, isBreak_of_isBareCharacter hc, ne_of_isBareCharacter hc '\r' rfl,
      ne_of_isBareCharacter hc '\x85' rfl]

theorem startsPlain_of_isBareCharacter (hc : isBareCharacter c = true) {t : Text}
    (hdash : t.head?.any Yaml.isBlank = false) : Layout.startsPlain false c t = true := by
  have hindicator : c ∉ ",[]\x7b\x7d#&*!|>'\"%@\x60".toList := by
    intro hmem
    have hall : ",[]\x7b\x7d#&*!|>'\"%@\x60".toList.all (fun d => !isBareCharacter d) = true := by
      decide
    have hindicator := List.all_eq_true.mp hall c hmem
    rw [hc] at hindicator
    cases hindicator
  unfold Layout.startsPlain
  split
  · simp [hdash]
  · simp only [ne_of_isBareCharacter hc '?' rfl, ne_of_isBareCharacter hc ':' rfl,
      isBlank_of_isBareCharacter hc, isBreak_of_isBareCharacter hc, hindicator, decide_false,
      Bool.or_self, Bool.not_false, Bool.false_eq_true, if_false]

theorem isBareSafe_eq_true (h : isBareSafe v = true) :
    (∀ c ∈ v, isBareCharacter c = true) ∧ 2 ≤ v.count '.' := by
  simpa [isBareSafe] using h

end Style

def keysToVersion : Text := "context:\n  version:".toList

namespace Yaml.Layout

def atVersion (t : Text) : Layout :=
  ⟨⟨t, 1, 10⟩, [2, 0], none, [], false,
    [.value, .scalar versionKey .plain, .key, .blockMappingStart,
      .value, .scalar contextKey .plain, .key, .blockMappingStart]⟩

theorem reads_atVersion (t : Text) :
    Reads (keysToVersion ++ ' ' :: t) (atVersion (' ' :: t)) := by
  have hcontext : Reads (keysToVersion ++ ' ' :: t)
      ⟨⟨":\n  version:".toList ++ ' ' :: t, 0, 7⟩, [], some ⟨0, false, 0, 0⟩, [], false,
        [.scalar contextKey .plain]⟩ := .next .start rfl
  have hbelow : Reads (keysToVersion ++ ' ' :: t)
      ⟨⟨"\n  version:".toList ++ ' ' :: t, 0, 8⟩, [0], none, [], false,
        [.value, .scalar contextKey .plain, .key, .blockMappingStart]⟩ := .next hcontext rfl
  have hversion : Reads (keysToVersion ++ ' ' :: t)
      ⟨⟨":".toList ++ ' ' :: t, 1, 9⟩, [0], some ⟨4, false, 1, 2⟩, [], false,
        [.scalar versionKey .plain, .value, .scalar contextKey .plain, .key, .blockMappingStart]⟩ :=
    .next hbelow rfl
  exact .next hversion rfl

theorem awaitsScalar_atVersion (t : Text) : (atVersion t).AwaitsScalar where
  candidate := rfl
  outer := rfl
  keyAllowed := rfl
  inside := by simp [atVersion]
  column := by simp [atVersion]

/-- A text that is safe to write bare is one plain scalar. -/
theorem run_bare {v : Text} (hv : Style.isBareSafe v = true) :
    (atVersion (' ' :: (v ++ ['\n']))).run 2 = .ok ((atVersion []).lastTokens v .plain) := by
  obtain ⟨hbare, hpoints⟩ := Style.isBareSafe_eq_true hv
  have hgap : ∀ c ∈ [' '], Text.isGap c = true := List.forall_mem_singleton.mpr rfl
  have hcolon : ':' ∉ v := fun hmem =>
    Style.ne_of_isBareCharacter (hbare _ hmem) ':' rfl rfl
  have hfree : Scalar.IsCommentFree v := by
    rintro x c y rfl
    exact absurd rfl (Style.ne_of_isBareCharacter (hbare '#' (by simp)) '#' rfl)
  match v, hpoints with
  | [c], hpoints =>
    rw [List.count_singleton] at hpoints
    split at hpoints <;> omega
  | c :: d :: t, _ =>
    have hd := hbare d (by simp)
    have hspace : atSpace (d :: t ++ ([] ++ ['\n'])) = false := by
      simp [atSpace, Style.isBlank_of_isBareCharacter hd, Style.isBreak_of_isBareCharacter hd]
    have hstart : startsPlain false c (d :: t ++ ([] ++ ['\n'])) = true :=
      Style.startsPlain_of_isBareCharacter (hbare c (by simp))
        (by simp [Style.isBlank_of_isBareCharacter hd])
    have hplain := (awaitsScalar_atVersion (' ' :: (c :: d :: t ++ ['\n']))).run_plain
      hgap rfl hstart (fun _ => hspace)
      (fun e he => Style.isBreak_of_isBareCharacter (hbare e he)) hfree
      (fun e he => Style.isBlank_of_isBareCharacter (hbare e (List.mem_of_getLast? he)))
      (by simp) rfl (by simp)
    exact hplain.resolve_right fun h => hcolon h.1

/-- What is written is the last scalar of the text; a bare one has two points. -/
theorem run_written (style : Style) {v : Text} (hv : ∀ c ∈ v, isBreak c = false) :
    ∃ written, (atVersion (' ' :: (style.encode v ++ ['\n']))).run 2 =
        .ok ((atVersion []).lastTokens v written) ∧ (written = .plain → 2 ≤ v.count '.') := by
  have hgap : ∀ c ∈ [' '], Text.isGap c = true := List.forall_mem_singleton.mpr rfl
  have hnil : ∀ c ∈ ([] : Text), isBreak c = false := by simp
  have hsingle : (atVersion (' ' :: (Style.singleQuoted v ++ ['\n']))).run 2 =
      .ok ((atVersion []).lastTokens v .singleQuoted) := by
    refine (awaitsScalar_atVersion _).run_quoted hgap true rfl
      (fun line column => ?_) hnil rfl
    obtain ⟨k, hk⟩ := QuotedScalar.readSingle_spelled hv (r := ['\n']) (by decide) line
      (column + 1) [] [] (by omega)
    refine ⟨k, ?_⟩
    simpa [QuotedScalar.read] using hk
  have hdouble : (atVersion (' ' :: (Style.doubleQuoted v ++ ['\n']))).run 2 =
      .ok ((atVersion []).lastTokens v .doubleQuoted) := by
    refine (awaitsScalar_atVersion _).run_quoted hgap false rfl
      (fun line column => ?_) hnil rfl
    obtain ⟨k, hk⟩ := QuotedScalar.readDouble_escaped hv (r := ['\n']) line (column + 1) [] []
      (by omega)
    refine ⟨k, ?_⟩
    simpa [QuotedScalar.read, QuotedScalar.escaped] using hk
  cases style with
  | single => exact ⟨_, hsingle, by simp⟩
  | double => exact ⟨_, hdouble, by simp⟩
  | plain =>
    rw [Style.encode]
    split
    · next hbare => exact ⟨_, run_bare hbare, fun _ => (Style.isBareSafe_eq_true hbare).2⟩
    · exact ⟨_, hdouble, by simp⟩

end Yaml.Layout

namespace Manifest

def bareManifest (token : Text) : Text := keysToVersion ++ ' ' :: (token ++ ['\n'])

def versionOnly (v : Text) : Value :=
  .mapping [(.string contextKey, .mapping [(.string versionKey, .string v)])]

theorem value_bareManifest {v token : Text} {style : ScalarStyle}
    (hallowed : ∀ c ∈ token, isAllowed c = true) (hline : ∀ c ∈ token, breaksLine c = false)
    (hrun : (Layout.atVersion (' ' :: (token ++ ['\n']))).run 2 =
      .ok ((Layout.atVersion []).lastTokens v style))
    (hstyle : style = .plain → 2 ≤ v.count '.') :
    Value.ofText (bareManifest token) = .ok (versionOnly v) := by
  have htext : unifyBreaks (bareManifest token) = bareManifest token := by
    have hkeys : unifyBreaks keysToVersion = keysToVersion := rfl
    rw [bareManifest, unifyBreaks_append_blank, hkeys, unifyBreaks_append hline]
    rfl
  have htokens : Token.ofText (bareManifest token) =
      .ok ((Layout.atVersion []).lastTokens v style) := by
    refine Token.ofText_eq_ok.mpr ⟨?_, ?_⟩
    · have hkeys : keysToVersion.all isAllowed = true := by decide
      rw [bareManifest, List.all_append, List.all_cons, List.all_append,
        List.all_eq_true.mpr hallowed, hkeys]
      rfl
    · rw [htext]
      exact (Layout.reads_atVersion (token ++ ['\n'])).run_start hrun
  have hdocument : Document.ofText (bareManifest token) = .ok
      ⟨.mapping none [(.scalar none contextKey .plain,
        .mapping none [(.scalar none versionKey .plain, .scalar none v style)])], .empty, 7⟩ := by
    rw [Document.ofText, htokens]
    rfl
  have hscalar : Resolution.scalar false none v style = .ok (.string v) := by
    cases style with
    | plain => rw [Resolution.scalar_plain, Resolution.plain_of_points (hstyle rfl)]
    | _ => rfl
  rw [Value.ofText, hdocument]
  change StateT.run' (Resolution.value _ (126 + 1 + 1) false _) _ = _
  rw [StateT.run'_eq, Resolution.run_entry _ _ rfl, Resolution.run_entry _ _ rfl,
    Resolution.run_scalar, hscalar]
  rfl

/-- Any text on one line reads back as the string it is, in whichever style it is written; a text
that is safe to write bare is one even without quotes. -/
theorem load_encode (v : Text) :
    ((∀ c ∈ v, isAllowed c = true ∧ breaksLine c = false) → ∀ style : Style,
      Value.ofText (bareManifest (style.encode v)) = .ok (versionOnly v) ∧
      load (bareManifest (style.encode v)) = .ok ⟨bareManifest (style.encode v), v⟩) ∧
    (Style.isBareSafe v = true → Value.ofText (bareManifest v) = .ok (versionOnly v) ∧
      Resolution.plain v = .ok (.string v)) := by
  constructor
  · intro hv style
    have hencode : ∀ c ∈ style.encode v, isAllowed c = true ∧ breaksLine c = false := by
      have hmarks : ∀ c ∈ ['\'', '"', '\\'], isAllowed c = true ∧ breaksLine c = false := by
        simp [isAllowed, breaksLine, isBreak]
      exact fun c hc => (Style.mem_of_mem_encode hc).elim (hv c) (hmarks c)
    obtain ⟨written, hrun, hstyle⟩ :=
      Layout.run_written style fun c hc => isBreak_of_breaksLine (hv c hc).2
    have hvalue := value_bareManifest (fun c hc => (hencode c hc).1) (fun c hc => (hencode c hc).2)
      hrun hstyle
    refine ⟨hvalue, ?_⟩
    rw [load, loadWith, hvalue]
    rfl
  · intro hbare
    obtain ⟨hletters, hpoints⟩ := Style.isBareSafe_eq_true hbare
    have hline (c : Char) (hc : c ∈ v) := Style.isLine_of_isBareCharacter (hletters c hc)
    exact ⟨value_bareManifest (fun c hc => (hline c hc).1) (fun c hc => (hline c hc).2)
      (Layout.run_bare hbare) fun _ => hpoints, Resolution.plain_of_points hpoints⟩

theorem load_encode_marks :
    (∀ style : Style,
      Value.ofText (bareManifest (style.encode " it's \"1\": #\\ ".toList)) =
        .ok (versionOnly " it's \"1\": #\\ ".toList) ∧
      load (bareManifest (style.encode " it's \"1\": #\\ ".toList)) =
        .ok ⟨bareManifest (style.encode " it's \"1\": #\\ ".toList),
          " it's \"1\": #\\ ".toList⟩) ∧
    Value.ofText (bareManifest "1.2.0-rc+1".toList) = .ok (versionOnly "1.2.0-rc+1".toList) ∧
      Resolution.plain "1.2.0-rc+1".toList = .ok (.string "1.2.0-rc+1".toList) :=
  ⟨(load_encode _).1 (by simp [isAllowed, breaksLine, isBreak]), (load_encode _).2 (by decide)⟩

end Manifest
end VersionDrift
