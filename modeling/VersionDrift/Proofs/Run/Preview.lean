import VersionDrift.Proofs.Diff.Hunk
import VersionDrift.Proofs.Run.Effect

/-!
# A check run as a preview

A check run with a diff rewrites the manifest in memory, and a sync run stores what the
same rewrite returns. So both fail alike, and the diff that the check run shows is that
of the manifest before and after the sync run.
-/

set_option autoImplicit false

namespace VersionDrift

namespace Disk

/-- The plans of the two modes for one header and one manifest, when a diff is wanted. -/
theorem make_modes (s : Settings) (v : Triple) (m : Manifest) :
    (∀ mode, Plan.make (requestOf s mode true) v.dotted m = .ok ⟨.synced m.version, none⟩) ∨
    (∃ fault, ∀ mode, Plan.make (requestOf s mode true) v.dotted m = .error fault) ∨
    ∃ new t, Unified.diff? s.manifestPath m.source new.source = some t ∧
      Plan.make (requestOf s .check true) v.dotted m =
        .ok ⟨.mismatch ⟨s.headerPath, v.dotted, s.manifestPath, m.version⟩ (some t), none⟩ ∧
      Plan.make (requestOf s .sync true) v.dotted m =
        .ok ⟨.updated m.version v.dotted (some t), some new⟩ := by
  by_cases heq : v.dotted = m.version
  · exact .inl fun mode => if_pos heq
  have hplan (mode : Mode) : Plan.make (requestOf s mode true) v.dotted m = _ := if_neg heq
  cases hnew : m.rewrite v.dotted with
  | error fault =>
    refine .inr (.inl ⟨fault, fun mode => ?_⟩)
    cases mode <;> rw [hplan, hnew] <;> rfl
  | ok new =>
    have hsource : m.source ≠ new.source :=
      (Manifest.source_ne_of_rewriteWith hnew (Ne.symm heq)).symm
    obtain ⟨t, ht⟩ := Unified.exists_diff hsource s.manifestPath
    refine .inr (.inr ⟨new, t, ht, ?_, ?_⟩) <;> rw [hplan, hnew, ← ht] <;> rfl

theorem decision_modes (d : Disk) (s : Settings) :
    (∃ f, ∀ mode, d.decision s mode true = .error f) ∨
    (∃ v, ∀ mode, d.decision s mode true = .ok ⟨.synced v, none⟩) ∨
    ∃ (header t : Text) (m new : Manifest), d.read s.manifestPath = .ok m.source ∧
      Unified.diff? s.manifestPath m.source new.source = some t ∧
      d.decision s .check true =
        .ok ⟨.mismatch ⟨s.headerPath, header, s.manifestPath, m.version⟩ (some t), none⟩ ∧
      d.decision s .sync true = .ok ⟨.updated m.version header (some t), some new⟩ := by
  cases hfound : d.found s with
  | error f => exact .inl ⟨f, fun mode => by rw [decision_eq_bind, hfound]; rfl⟩
  | ok p =>
    obtain ⟨v, m⟩ := p
    have hdecision (mode : Mode) : d.decision s mode true =
        (Plan.make (requestOf s mode true) v.dotted m).mapError (.ofManifest s.manifestPath) := by
      rw [decision_eq_bind, hfound]
      rfl
    rcases make_modes s v m with hsynced | ⟨fault, hfault⟩ | ⟨new, t, ht, hcheck, hsync⟩
    · exact .inr (.inl ⟨m.version, fun mode => by rw [hdecision, hsynced]; rfl⟩)
    · exact .inl ⟨_, fun mode => by rw [hdecision, hfault]; rfl⟩
    · refine .inr (.inr ⟨v.dotted, t, m, new, read_of_found hfound, ht, ?_, ?_⟩)
      · rw [hdecision, hcheck]
        rfl
      · rw [hdecision, hsync]
        rfl

variable {d : Disk} {s : Settings} {mode : Mode} {wantsDiff : Bool}

theorem run_of_error {f : Failure} (h : d.decision s mode wantsDiff = .error f) :
    d.run s mode wantsDiff = (.error f, d) := by rw [run_eq, h]

theorem run_of_report {o : Outcome} (h : d.decision s mode wantsDiff = .ok ⟨o, none⟩) :
    d.run s mode wantsDiff = (.ok o, d) := by
  rw [run_eq, h]
  rfl

theorem run_of_store {o : Outcome} {before : Text} {new : Manifest}
    (hread : d.read s.manifestPath = .ok before)
    (h : d.decision s mode wantsDiff = .ok ⟨o, some new⟩) :
    ∃ d', d.run s mode wantsDiff = (.ok o, d') ∧ d'.read s.manifestPath = .ok new.source := by
  obtain ⟨l, d', hl, hd', hexchanged⟩ := replace_of_read hread new.source
  refine ⟨d', ?_, hexchanged.read hl⟩
  rw [run_eq, h]
  simp only [carryOut, hd']

/-- What a check run with a diff shows is what a sync run does to the same disk. -/
theorem check_previews_sync (d : Disk) (s : Settings) :
    (∃ v, d.run s .check true = (.ok (.synced v), d) ∧ d.run s .sync true = (.ok (.synced v), d)) ∨
    (∃ f, d.run s .check true = (.error f, d) ∧ d.run s .sync true = (.error f, d)) ∨
    ∃ header manifest t before after d',
      d.run s .check true =
        (.ok (.mismatch ⟨s.headerPath, header, s.manifestPath, manifest⟩ (some t)), d) ∧
      d.run s .sync true = (.ok (.updated manifest header (some t)), d') ∧
      d.read s.manifestPath = .ok before ∧ d'.read s.manifestPath = .ok after ∧
      Unified.diff? s.manifestPath before after = some t := by
  rcases decision_modes d s with ⟨f, hf⟩ | ⟨v, hv⟩ | ⟨header, t, m, new, hread, ht, hcheck, hsync⟩
  · exact .inr (.inl ⟨f, run_of_error (hf _), run_of_error (hf _)⟩)
  · exact .inl ⟨v, run_of_report (hv _), run_of_report (hv _)⟩
  · obtain ⟨d', hrun, hafter⟩ := run_of_store hread hsync
    exact .inr (.inr ⟨header, m.version, t, m.source, new.source, d', run_of_report hcheck, hrun,
      hread, hafter, ht⟩)

end Disk
end VersionDrift
