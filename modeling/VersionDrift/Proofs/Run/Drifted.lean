import VersionDrift.Proofs.Diff.Exchanged
import VersionDrift.Proofs.Manifest.Framed
import VersionDrift.Outcome

/-!
# What drift shows

When the versions differ, a run that succeeds has a diff to show, whether it stores the
rewritten manifest or not. The diff is the line of the version that is found, with the
version of the header in its place.
-/

set_option autoImplicit false

namespace VersionDrift

def Outcome.diff? : Outcome → Option Text
  | .synced _ => none
  | .updated _ _ diff => diff
  | .mismatch _ diff => diff

namespace Plan

/-- With drift either mode rewrites the manifest, and the diff leads to what is written. -/
theorem make_of_drift {r : Request} {header : Text} {m : Manifest} (hwants : r.wantsDiff = true)
    (hdrift : header ≠ m.version) : ∃ plan : Manifest → Plan,
      make r header m = (m.rewrite header).map plan ∧
      ∀ new, (plan new).outcome.diff? = Unified.diff? r.manifestPath m.source new.source := by
  have hdiff (new : Manifest) :
      diffOf r m new = Unified.diff? r.manifestPath m.source new.source := if_pos hwants
  rw [make, if_neg hdrift, hwants]
  cases r.mode with
  | check => exact ⟨_, rfl, hdiff⟩
  | sync => exact ⟨_, rfl, hdiff⟩

end Plan

namespace Text

theorem endedLines_ended {ls : List Text} (hls : ∀ l ∈ ls, '\n' ∉ l) (t : Text) :
    endedLines ((ls.map (· ++ ['\n'])).flatten ++ t) = ls.map (· ++ ['\n']) ++ endedLines t := by
  induction ls with
  | nil => rfl
  | cons l ls ih =>
    obtain ⟨hl, hls⟩ := List.forall_mem_cons.mp hls
    have hcut : ((l :: ls).map (· ++ ['\n'])).flatten ++ t =
        l ++ '\n' :: ((ls.map (· ++ ['\n'])).flatten ++ t) := by simp
    rw [hcut, endedLines_feed hl, ih hls]
    rfl

end Text

namespace Frame

theorem endedLines_filled {f : Frame} (hf : f.IsVersion) :
    ∃ (ending : Text) (below : List Text), (ending = [] ∧ below = [] ∨ ending = ['\n']) ∧
      ∀ token, '\n' ∉ token → Text.endedLines (f.filled token) =
        f.above.map (· ++ ['\n']) ++ (f.opening ++ token ++ f.closing ++ ending) :: below := by
  have hline {token : Text} (htoken : '\n' ∉ token) :
      '\n' ∉ f.opening ++ token ++ f.closing := by
    simp [hf.opening.2, htoken, hf.closing.2]
  have hfilled (token : Text) : f.filled token = (f.above.map (· ++ ['\n'])).flatten ++
      (f.opening ++ token ++ f.closing ++ (f.below.map ('\n' :: ·)).flatten) := by
    simp [filled, before, after]
  cases hbelow : f.below with
  | nil =>
    refine ⟨[], [], .inl ⟨rfl, rfl⟩, fun token htoken => ?_⟩
    have hne : f.opening ++ token ++ f.closing ≠ [] := by
      obtain ⟨⟨spaces, key, gap, hopening, -⟩, -⟩ := hf.opening
      simp [hopening]
    rw [hfilled, Text.endedLines_ended hf.above.2, hbelow, List.map_nil, List.flatten_nil,
      List.append_nil, Text.endedLines_of_not_mem hne (hline htoken)]
  | cons l ls =>
    refine ⟨['\n'], Text.endedLines (l ++ (ls.map ('\n' :: ·)).flatten), .inr rfl,
      fun token htoken => ?_⟩
    rw [hfilled, Text.endedLines_ended hf.above.2, hbelow, List.map_cons, List.flatten_cons,
      List.cons_append, Text.endedLines_feed (hline htoken)]

theorem returnsFed_filled {f : Frame} (hf : f.IsVersion) {token token' : Text}
    (h : Text.ReturnsFed (f.filled token)) (htoken : '\r' ∉ token') :
    Text.ReturnsFed (f.filled token') := by
  have hbefore : f.before.getLast? ≠ some '\r' := by
    obtain ⟨⟨spaces, key, gap, hopening, -, -, hne, hgap⟩, -⟩ := hf.opening
    obtain ⟨u, c, rfl⟩ := (List.eq_nil_or_concat gap).resolve_left hne
    have hc : Text.isGap c = true := hgap c (by simp)
    have hcut : f.before =
        ((f.above.map (· ++ ['\n'])).flatten ++ spaces ++ key ++ ':' :: u) ++ [c] := by
      simp [before, hopening]
    rw [hcut, List.getLast?_concat]
    rintro ⟨⟩
    cases hc
  rw [filled, List.append_assoc] at h ⊢
  rw [Text.returnsFed_append hbefore] at h ⊢
  have hlast : token'.getLast? ≠ some '\r' := fun hlast => htoken (List.mem_of_getLast? hlast)
  exact ⟨h.1, (Text.returnsFed_append hlast).mpr
    ⟨Text.returnsFed_of_not_mem htoken, h.2.of_append⟩⟩

end Frame

namespace Manifest

/-- A rewrite exchanges the version on one line, and leaves no carriage return alone. -/
theorem lines_of_rewrite {v : Triple} {m new : Manifest} (h : m.rewrite v.dotted = .ok new) :
    ∃ (style : Style) (f : Frame) (ending : Text) (below : List Text), f.IsVersion ∧
      (ending = [] ∧ below = [] ∨ ending = ['\n']) ∧
      let line (version : Text) := f.opening ++ style.written version ++ f.closing ++ ending
      let above := f.above.map (· ++ ['\n'])
      Text.endedLines m.source = above ++ line m.version :: below ∧
      Text.endedLines new.source = above ++ line v.dotted :: below ∧
      (Text.ReturnsFed m.source → Text.ReturnsFed new.source) := by
  obtain ⟨l, hfind, hvalue, hsource, -, -⟩ := rewriteWith_eq_ok h
  obtain ⟨happend, hspells⟩ := Located.find_append hfind
  obtain ⟨f, hf, hbefore, hafter, hfeed⟩ := Located.find_frame hfind
  have htoken : l.token = l.style.written m.version := hvalue ▸ hspells.eq_written
  have hfeed' := v.feed_not_mem_encode l.style
  have hreturn := v.return_not_mem_encode l.style
  rw [l.style.encode_dotted v] at hfeed' hreturn
  rw [hbefore, hafter, htoken] at happend
  rw [hbefore, hafter, l.style.encode_dotted v] at hsource
  obtain ⟨ending, below, hending, hlines⟩ := Frame.endedLines_filled hf
  refine ⟨l.style, f, ending, below, hf, hending, ?_, ?_, fun hreturns => ?_⟩
  · rw [← happend]
    exact hlines _ (htoken ▸ hfeed)
  · rw [hsource]
    exact hlines _ hfeed'
  · rw [hsource]
    exact Frame.returnsFed_filled hf (happend.symm ▸ hreturns) hreturn

/-- With drift the diff is there, and it shows the line of the version that is found with only the
version exchanged, exactly when the line below it is not the new line already. -/
theorem shown_of_drift {source headerPath path : Text} {v : Triple} {mode : Mode} {m : Manifest}
    {p : Plan} (hreturns : Text.ReturnsFed source) (hload : load source = .ok m)
    (hdrift : v.dotted ≠ m.version)
    (hplan : Plan.make ⟨headerPath, path, mode, true⟩ v.dotted m = .ok p) :
    ∃ (style : Style) (f : Frame) (ending t : Text) (below : List Text), f.IsVersion ∧
      (ending = [] ∧ below = [] ∨ ending = ['\n']) ∧
      let line (version : Text) := f.opening ++ style.written version ++ f.closing ++ ending
      let above := f.above.map (· ++ ['\n'])
      Text.endedLines source = above ++ line m.version :: below ∧
      p.outcome.diff? = some t ∧
      (Patch.ShowsExchange path above below (line m.version) (line v.dotted) t ↔
        below.head? ≠ some (line v.dotted)) := by
  obtain ⟨plan, hmake, hdiff⟩ := Plan.make_of_drift
    (r := ⟨headerPath, path, mode, true⟩) rfl hdrift
  obtain ⟨new, hrewrite, rfl⟩ := map_eq_ok (hmake.symm.trans hplan)
  obtain rfl := source_of_load hload
  obtain ⟨style, f, ending, below, hf, hending, hold, hnew, hkept⟩ := lines_of_rewrite hrewrite
  dsimp only at hold hnew
  have hchanged : m.source ≠ new.source :=
    (source_ne_of_rewriteWith hrewrite (Ne.symm hdrift)).symm
  obtain ⟨t, ht⟩ := Unified.exists_diff hchanged path
  refine ⟨style, f, ending, t, below, hf, hending, hold, (hdiff new).trans ht, ?_⟩
  have hne : f.opening ++ style.written m.version ++ f.closing ++ ending ≠
      f.opening ++ style.written v.dotted ++ f.closing ++ ending := fun heq => by
    rw [heq, ← hnew] at hold
    exact hchanged (by rw [← Text.endedLines_flatten m.source, hold, Text.endedLines_flatten])
  rw [← Text.returnedLines_eq_endedLines hreturns] at hold
  rw [← Text.returnedLines_eq_endedLines (hkept hreturns)] at hnew
  exact Patch.showsExchange_iff hold hnew hne ht

set_option maxRecDepth 10000 in
theorem shown_of_drift_last_line :
    let source := "a: 1\r\ncontext:\r\n  b: 2\r\n  version: '1.2.0' # old".toList
    let m : Manifest := ⟨source, "1.2.0".toList⟩
    let p : Plan := ⟨.mismatch ⟨"h".toList, "1.3.0".toList, "m".toList, "1.2.0".toList⟩
      (Unified.diff? "m".toList source
        "a: 1\r\ncontext:\r\n  b: 2\r\n  version: '1.3.0' # old".toList), none⟩
    Text.ReturnsFed source ∧ load source = .ok m ∧ (Triple.mk 1 3 0).dotted ≠ m.version ∧
      Plan.make ⟨"h".toList, "m".toList, .check, true⟩ (Triple.mk 1 3 0).dotted m = .ok p ∧
      ∃ (style : Style) (f : Frame) (ending t : Text) (below : List Text), f.IsVersion ∧
        (ending = [] ∧ below = [] ∨ ending = ['\n']) ∧
        let line (version : Text) := f.opening ++ style.written version ++ f.closing ++ ending
        let above := f.above.map (· ++ ['\n'])
        Text.endedLines source = above ++ line m.version :: below ∧
        p.outcome.diff? = some t ∧
        (Patch.ShowsExchange "m".toList above below (line m.version)
          (line (Triple.mk 1 3 0).dotted) t ↔
          below.head? ≠ some (line (Triple.mk 1 3 0).dotted)) := by
  intro source m p
  have hreturns : Text.ReturnsFed source := by decide +kernel
  have hload : load source = .ok m := eq_ok_of_toOption (by decide +kernel)
  have hdrift : (Triple.mk 1 3 0).dotted ≠ m.version := by decide +kernel
  have hplan :
      Plan.make ⟨"h".toList, "m".toList, .check, true⟩ (Triple.mk 1 3 0).dotted m = .ok p :=
    eq_ok_of_toOption (by decide +kernel)
  exact ⟨hreturns, hload, hdrift, hplan, shown_of_drift hreturns hload hdrift hplan⟩

set_option maxRecDepth 10000 in
/-- The line that is found stands inside quotes, above lines that are the new line already: the
removed line and the added one are shown in two hunks. -/
theorem shown_apart_inside_quotes :
    let line (version : Text) : Text := "  version: ".toList ++ version ++ ['\n']
    let above := ["context:\n".toList, "  a: \"x\n".toList]
    let below := List.replicate 5 (line "1.3.0".toList) ++ ["  y\"\n".toList, line "1.2".toList]
    let source := (above ++ line "1.2".toList :: below).flatten
    let m : Manifest := ⟨source, "1.2".toList⟩
    let t := ("--- a/recipe.yaml\n+++ b/recipe.yaml\n" ++
      "@@ -1,5 +1,4 @@\n context:\n   a: \"x\n-  version: 1.2\n" ++
      "   version: 1.3.0\n   version: 1.3.0\n" ++
      "@@ -7,4 +6,5 @@\n   version: 1.3.0\n   version: 1.3.0\n+  version: 1.3.0\n" ++
      "   y\"\n   version: 1.2\n").toList
    Text.ReturnsFed source ∧ load source = .ok m ∧
      (∀ mode, ∃ p, Plan.make ⟨"config.hpp".toList, "recipe.yaml".toList, mode, true⟩
        (Triple.mk 1 3 0).dotted m = .ok p ∧ p.outcome.diff? = some t) ∧
      ¬ Patch.ShowsExchange "recipe.yaml".toList above below (line "1.2".toList)
        (line "1.3.0".toList) t := by
  intro line above below source m t
  have hreturns : Text.ReturnsFed source := by decide +kernel
  have hload : load source = .ok m := eq_ok_of_toOption (by decide +kernel)
  let new : Manifest := ⟨(above ++ line "1.3.0".toList :: below).flatten, "1.3.0".toList⟩
  have hrewrite : m.rewrite (Triple.mk 1 3 0).dotted = .ok new :=
    eq_ok_of_toOption (by decide +kernel)
  have ht : Unified.diff? "recipe.yaml".toList source new.source = some t := by decide +kernel
  have hold : Text.returnedLines source = above ++ line "1.2".toList :: below := by decide +kernel
  have hnew : Text.returnedLines new.source = above ++ line "1.3.0".toList :: below := by
    decide +kernel
  have hdrift : (Triple.mk 1 3 0).dotted ≠ m.version := by decide +kernel
  refine ⟨hreturns, hload, fun mode => ?_, fun h => ?_⟩
  · obtain ⟨plan, hmake, hdiff⟩ := Plan.make_of_drift
      (r := ⟨"config.hpp".toList, "recipe.yaml".toList, mode, true⟩) rfl hdrift
    rw [hrewrite] at hmake
    exact ⟨plan new, hmake, (hdiff new).trans ht⟩
  · exact (Patch.showsExchange_iff hold hnew (by decide +kernel) ht).mp h (by decide +kernel)

end Manifest
end VersionDrift
