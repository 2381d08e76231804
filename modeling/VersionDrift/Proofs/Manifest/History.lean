import VersionDrift.Proofs.Except
import VersionDrift.Proofs.Manifest.Relocated

/-!
# Sequences of rewrites

A manifest is rewritten in place, again and again: an attempt that fails leaves it as
it was. A rewritten manifest differs from the old one in the token alone, and the next
rewrite replaces that token. So nothing of the earlier versions is left, whatever tells
the value of a text.
-/

set_option autoImplicit false

namespace VersionDrift.Manifest

/-- One rewrite in a sequence: what kept it from succeeding, and the manifest after it. -/
structure Attempt where
  version : Triple
  fault? : Option ManifestFault
  manifest : Manifest
deriving DecidableEq

variable {read : Reader} {m new : Manifest} {v : Triple}

def attempt (read : Reader) (m : Manifest) (v : Triple) : Attempt :=
  match m.rewriteWith read v.dotted with
  | .ok new => ⟨v, none, new⟩
  | .error fault => ⟨v, some fault, m⟩

def attempts (read : Reader) : Manifest → List Triple → List Attempt
  | _, [] => []
  | m, v :: vs => attempt read m v :: attempts read (attempt read m v).manifest vs

/-- The manifest after attempts that began with `m`. -/
def manifestAfter : Manifest → List Attempt → Manifest
  | m, [] => m
  | _, a :: as => manifestAfter a.manifest as

def Attempt.succeeded (a : Attempt) : Bool := a.fault?.isNone

def lastSuccess? (as : List Attempt) : Option Attempt := (as.filter Attempt.succeeded).getLast?

theorem attempt_of_ok (h : m.rewriteWith read v.dotted = .ok new) :
    attempt read m v = ⟨v, none, new⟩ := by
  rw [attempt, h]

theorem attempt_of_error {fault : ManifestFault} (h : m.rewriteWith read v.dotted = .error fault) :
    attempt read m v = ⟨v, some fault, m⟩ := by
  rw [attempt, h]

theorem manifest_of_not_succeeded (h : (attempt read m v).succeeded = false) :
    (attempt read m v).manifest = m := by
  cases hrewrite : m.rewriteWith read v.dotted with
  | ok new =>
    rw [attempt_of_ok hrewrite] at h
    cases h
  | error fault => rw [attempt_of_error hrewrite]

theorem locate_of_find {l : Located} (hfind : Located.find m.source = .ok l)
    (hvalue : l.value = m.version) : m.locate = .ok l := by
  rw [locate, hfind]
  exact if_pos hvalue

/-- After a rewrite every further one gives what it would have given before. -/
theorem rewriteWith_rewritten (h : m.rewriteWith read v.dotted = .ok new) (w : Text) :
    new.rewriteWith read w = m.rewriteWith read w := by
  obtain ⟨l, hfind, hvalue, hsource, -, hversion⟩ := rewriteWith_eq_ok h
  have hlocate := locate_of_find hfind hvalue
  have hfindNew := Located.find_encode hfind v
  rw [← hsource] at hfindNew
  have hlocateNew := locate_of_find hfindNew hversion.symm
  rw [rewriteWith, rewriteWith, hlocate, hlocateNew]

@[simp] theorem version_attempt (read : Reader) (m : Manifest) (v : Triple) :
    (attempt read m v).version = v := by
  unfold attempt
  split <;> rfl

theorem map_version_attempts (read : Reader) (m : Manifest) (vs : List Triple) :
    (attempts read m vs).map Attempt.version = vs := by
  induction vs generalizing m with
  | nil => rfl
  | cons v vs ih => rw [attempts, List.map_cons, version_attempt, ih]

theorem attempts_split {vs : List Triple} {earlier later : List Attempt} {a : Attempt}
    (h : attempts read m vs = earlier ++ a :: later) :
    a = attempt read (manifestAfter m earlier) a.version := by
  induction vs generalizing m earlier with
  | nil => simp [attempts] at h
  | cons v vs ih =>
    cases earlier with
    | nil =>
      obtain ⟨rfl, -⟩ := List.cons.inj h
      rw [version_attempt]
      rfl
    | cons b earlier =>
      obtain ⟨rfl, hrest⟩ := List.cons.inj h
      have ha := ih hrest
      exact ha

theorem last_of_attempts {current : Manifest}
    (hsame : ∀ w : Triple, current.rewriteWith read w.dotted = m.rewriteWith read w.dotted)
    (vs : List Triple) :
    match lastSuccess? (attempts read current vs) with
    | some a => m.rewriteWith read a.version.dotted =
        .ok (manifestAfter current (attempts read current vs))
    | none => manifestAfter current (attempts read current vs) = current := by
  induction vs generalizing current with
  | nil => rfl
  | cons v vs ih =>
    cases hrewrite : current.rewriteWith read v.dotted with
    | ok new =>
      have hnew := ih fun w => (rewriteWith_rewritten hrewrite w.dotted).trans (hsame w)
      have hfirst : attempts read current (v :: vs) = ⟨v, none, new⟩ :: attempts read new vs := by
        rw [attempts, attempt_of_ok hrewrite]
      have hlast : lastSuccess? (⟨v, none, new⟩ :: attempts read new vs) =
          some ((lastSuccess? (attempts read new vs)).getD ⟨v, none, new⟩) := List.getLast?_cons
      rw [hfirst, hlast, manifestAfter]
      cases hrest : lastSuccess? (attempts read new vs) with
      | some a =>
        rw [hrest] at hnew
        exact hnew
      | none =>
        rw [hrest] at hnew
        exact (hsame v).symm.trans (hrewrite.trans (congrArg Except.ok hnew.symm))
    | error fault =>
      have hfirst : attempts read current (v :: vs) =
          ⟨v, some fault, current⟩ :: attempts read current vs := by
        rw [attempts, attempt_of_error hrewrite]
      rw [hfirst]
      exact ih hsame

/-- Rewrites forget their history. An attempt that fails changes nothing; if any succeeded, the
manifest in the end is the one that the last of them makes of the first manifest alone. -/
theorem attempts_forget_history (read : Reader) (m : Manifest) (vs : List Triple) :
    (attempts read m vs).map Attempt.version = vs ∧
    (∀ earlier a later, attempts read m vs = earlier ++ a :: later → a.succeeded = false →
      a.manifest = manifestAfter m earlier) ∧
    (∀ a, lastSuccess? (attempts read m vs) = some a →
      m.rewriteWith read a.version.dotted = .ok (manifestAfter m (attempts read m vs))) ∧
    (lastSuccess? (attempts read m vs) = none → manifestAfter m (attempts read m vs) = m) := by
  have hsame (w : Triple) : m.rewriteWith read w.dotted = m.rewriteWith read w.dotted := rfl
  have hlast := last_of_attempts hsame vs
  refine ⟨map_version_attempts read m vs, fun earlier a later h hfailed => ?_, fun a ha => ?_,
    fun hnone => ?_⟩
  · have ha := attempts_split h
    rw [ha] at hfailed ⊢
    exact manifest_of_not_succeeded hfailed
  · rwa [ha] at hlast
  · rwa [hnone] at hlast

/-- The version stands inside quotes and again below them: only the one that is there already can
be written, and two of three attempts fail. -/
theorem attempts_forget_history_inside_quotes :
    let source := "context:\n  a: \"x\n  version: 1.3.0\n  y\"\n  version: 1.3.0\n".toList
    let m : Manifest := ⟨source, "1.3.0".toList⟩
    let as := attempts Yaml.Value.ofText m [⟨2, 0, 0⟩, ⟨1, 3, 0⟩, ⟨2, 0, 1⟩]
    load source = .ok m ∧ ∃ a b c, as = [a, b, c] ∧ a.succeeded = false ∧ c.succeeded = false ∧
      a.manifest = manifestAfter m [] ∧ c.manifest = manifestAfter m [a, b] ∧
      lastSuccess? as = some b ∧
      m.rewriteWith Yaml.Value.ofText b.version.dotted = .ok (manifestAfter m as) := by
  intro source m as
  have hload : load source = .ok m := eq_ok_of_toOption (by decide +kernel)
  obtain ⟨f, hf⟩ : ∃ f, m.rewriteWith Yaml.Value.ofText (Triple.dotted ⟨2, 0, 0⟩) = .error f :=
    eq_error_of_toOption (by decide +kernel)
  have hsame : m.rewriteWith Yaml.Value.ofText (Triple.dotted ⟨1, 3, 0⟩) = .ok m :=
    eq_ok_of_toOption (by decide +kernel)
  obtain ⟨g, hg⟩ : ∃ g, m.rewriteWith Yaml.Value.ofText (Triple.dotted ⟨2, 0, 1⟩) = .error g :=
    eq_error_of_toOption (by decide +kernel)
  have has : as = [⟨⟨2, 0, 0⟩, some f, m⟩, ⟨⟨1, 3, 0⟩, none, m⟩, ⟨⟨2, 0, 1⟩, some g, m⟩] := by
    simp only [as, attempts, attempt_of_error hf, attempt_of_ok hsame, attempt_of_error hg]
  have hb : lastSuccess? as = some ⟨⟨1, 3, 0⟩, none, m⟩ := by
    rw [has]
    rfl
  clear_value m
  have hforget :=
    attempts_forget_history Yaml.Value.ofText m [⟨2, 0, 0⟩, ⟨1, 3, 0⟩, ⟨2, 0, 1⟩]
  exact ⟨hload, _, _, _, has, rfl, rfl, hforget.2.1 [] _ _ has rfl,
    hforget.2.1 [_, _] _ _ has rfl, hb, hforget.2.2.1 _ hb⟩

end VersionDrift.Manifest
