import VersionDrift.Proofs.Manifest.History

/-!
# Old versions written back

A rewrite can be taken back. What is written for a value in its style is the token it was
read from, unless the token is bare and not safe to write bare. So the old version, which
need not be a dotted one, makes the old text again, after any number of rewrites.
-/

set_option autoImplicit false

namespace VersionDrift.Manifest

variable {read : Reader} {source : Text} {m : Manifest} {l : Located}

theorem rewriteWith_version (hload : loadWith read source = .ok m) (hlocate : m.locate = .ok l)
    (hsafe : l.style = .plain → Style.isBareSafe l.value = true) :
    m.rewriteWith read m.version = .ok m := by
  obtain ⟨hfind, hvalue⟩ := locate_eq_ok hlocate
  obtain ⟨happend, hspells⟩ := Located.find_append hfind
  have hsame : l.before ++ l.style.encode m.version ++ l.after = source := by
    rw [← hvalue, hspells.encode_value hsafe, happend, source_of_loadWith hload]
  rw [rewriteWith, hlocate]
  dsimp only
  rw [hsame, hload]
  exact if_pos rfl

/-- What writing a text into the manifest gives does not change in a sequence of rewrites. -/
theorem rewriteWith_manifestAfter (read : Reader) (m : Manifest) (vs : List Triple) (w : Text) :
    (manifestAfter m (attempts read m vs)).rewriteWith read w = m.rewriteWith read w := by
  have hsame (v : Triple) : m.rewriteWith read v.dotted = m.rewriteWith read v.dotted := rfl
  have hlast := last_of_attempts hsame vs
  split at hlast
  · exact rewriteWith_rewritten hlast w
  · rw [hlast]

/-- The old version can be written back: at once, after another version, and after any sequence of
attempts to write others. Each time the manifest is the one that was loaded, to the byte. -/
theorem rewrite_undone (hload : load source = .ok m) (hlocate : m.locate = .ok l)
    (hsafe : l.style = .plain → Style.isBareSafe l.value = true) :
    m.source = source ∧ m.rewrite m.version = .ok m ∧
      (∀ (v : Triple) (new : Manifest), m.rewrite v.dotted = .ok new →
        new.rewrite m.version = .ok m) ∧
      ∀ vs : List Triple,
        (manifestAfter m (attempts Yaml.Value.ofText m vs)).rewrite m.version = .ok m := by
  have hself : m.rewrite m.version = .ok m := rewriteWith_version hload hlocate hsafe
  refine ⟨source_of_load hload, hself, fun v new hnew => ?_, fun vs => ?_⟩
  · exact (rewriteWith_rewritten hnew m.version).trans hself
  · exact (rewriteWith_manifestAfter Yaml.Value.ofText m vs m.version).trans hself

/-- A version that is no dotted one, with quotes in quotes and a comment behind it. -/
theorem rewrite_undone_doubled_quotes :
    let source := "context:\n  version: 'it''s 1.2 \\\"' # x\n".toList
    let m : Manifest := ⟨source, "it's 1.2 \\\"".toList⟩
    let l : Located := ⟨"context:\n  version: ".toList, "'it''s 1.2 \\\"'".toList,
      " # x\n".toList, .single, "it's 1.2 \\\"".toList⟩
    let new : Manifest := ⟨"context:\n  version: '1.3.0' # x\n".toList, "1.3.0".toList⟩
    load source = .ok m ∧ m.locate = .ok l ∧
      (l.style = .plain → Style.isBareSafe l.value = true) ∧
      m.rewrite m.version = .ok m ∧ m.rewrite "1.3.0".toList = .ok new ∧
      new.rewrite m.version = .ok m := by
  intro source m l new
  have hload : load source = .ok m := eq_ok_of_toOption (by decide +kernel)
  have hlocate : m.locate = .ok l := eq_ok_of_toOption (by decide +kernel)
  have hnew : m.rewrite "1.3.0".toList = .ok new := eq_ok_of_toOption (by decide +kernel)
  have hsafe : l.style = .plain → Style.isBareSafe l.value = true := nofun
  obtain ⟨-, hself, hundone, -⟩ := rewrite_undone hload hlocate hsafe
  exact ⟨hload, hlocate, hsafe, hself, hnew, hundone ⟨1, 3, 0⟩ new hnew⟩

end VersionDrift.Manifest
