import VersionDrift.Run
import VersionDrift.Proofs.Except
import VersionDrift.Proofs.Files.Replacement
import VersionDrift.Proofs.Manifest.Rewriting

/-!
# What a run does to the disk

A run decides from what it reads and then carries the decision out. Only a plan with
a manifest to store changes the disk, and only in the content of the manifest file.
-/

set_option autoImplicit false

namespace VersionDrift

namespace Plan

/-- A plan stores a manifest only in sync mode, and then it is the rewritten one. -/
theorem make_cases {r : Request} {header : Text} {m : Manifest} {p : Plan}
    (h : make r header m = .ok p) :
    (header = m.version ∧ p = ⟨.synced m.version, none⟩) ∨
    (header ≠ m.version ∧ r.mode = .check ∧
      ∃ diff, p = ⟨.mismatch ⟨r.headerPath, header, r.manifestPath, m.version⟩ diff, none⟩) ∨
    (header ≠ m.version ∧ r.mode = .sync ∧ ∃ new, m.rewrite header = .ok new ∧
      p = ⟨.updated m.version header (diffOf r m new), some new⟩) := by
  unfold make at h
  split at h
  · next heq => exact .inl ⟨heq, (Except.ok.inj h).symm⟩
  · next hne =>
    split at h
    · next hmode =>
      dsimp only at h
      split at h
      · cases hnew : m.rewrite header with
        | error e => rw [hnew] at h; cases h
        | ok new =>
          rw [hnew] at h
          exact .inr (.inl ⟨hne, hmode, _, (Except.ok.inj h).symm⟩)
      · exact .inr (.inl ⟨hne, hmode, _, (Except.ok.inj h).symm⟩)
    · next hmode =>
      cases hnew : m.rewrite header with
      | error e => rw [hnew] at h; cases h
      | ok new =>
        rw [hnew] at h
        exact .inr (.inr ⟨hne, hmode, new, rfl, (Except.ok.inj h).symm⟩)

end Plan

namespace Disk

def readFile (d : Disk) (kind : FileKind) (path : Text) : Except Failure Text :=
  (d.read path).mapError (.ofFile kind path)

/-- What a run decides, from what it reads and nothing else. -/
def decision (d : Disk) (s : Settings) (mode : Mode) (wantsDiff : Bool) : Except Failure Plan := do
  let version ← Run.headerVersion s (← d.readFile .header s.headerPath)
  let manifest ← Run.manifestOf s (← d.readFile .manifest s.manifestPath)
  Run.plan s mode wantsDiff version manifest

def carryOut (d : Disk) (s : Settings) (p : Plan) : Except Failure Outcome × Disk :=
  match p.store with
  | none => (.ok p.outcome, d)
  | some new =>
    match d.replace s.manifestPath new.source with
    | .ok d' => (.ok p.outcome, d')
    | .error e => (.error (.file s.manifestPath e), d)

section

variable {α β : Type}

theorem run_bind (x : ExceptT Failure (StateM Disk) α) (f : α → ExceptT Failure (StateM Disk) β)
    (d : Disk) : (x >>= f).run.run d = match x.run.run d with
      | (.ok a, d') => (f a).run.run d'
      | (.error e, d') => (.error e, d') := by
  simp only [bind, ExceptT.bind, ExceptT.run, ExceptT.mk, StateT.bind, StateT.run]
  rcases x d with ⟨_ | _, d'⟩ <;> rfl

@[simp] theorem run_lift (x : Except Failure α) (d : Disk) :
    (liftM x : ExceptT Failure (StateM Disk) α).run.run d = (x, d) := rfl

@[simp] theorem run_readFile (kind : FileKind) (path : Text) (d : Disk) :
    (Run.readFile Disk.files kind path).run.run d = (d.readFile kind path, d) := by
  unfold Run.readFile readFile
  rw [run_bind]
  have hread : (liftM (Disk.files.read path) : ExceptT Failure (StateM Disk) _).run.run d =
      (.ok (d.read path), d) := rfl
  rw [hread]
  cases d.read path <;> rfl

theorem run_replace (path content : Text) (d : Disk) :
    (Disk.files.replace path content).run d = match d.replace path content with
      | .ok d' => (.ok (), d')
      | .error e => (.error e, d) := by
  simp only [Disk.files, bind, StateT.bind, StateT.run, get, getThe, MonadStateOf.get, StateT.get,
    pure]
  cases d.replace path content <;> rfl

theorem run_store (s : Settings) (p : Plan) (d : Disk) :
    (do
      if let some new := p.store then
        match ← Disk.files.replace s.manifestPath new.source with
        | .ok () => pure ()
        | .error e => throw (Failure.file s.manifestPath e)
      return p.outcome : ExceptT Failure (StateM Disk) Outcome).run.run d = d.carryOut s p := by
  unfold carryOut
  cases p.store with
  | none => rfl
  | some new =>
    have hlift : (liftM (Disk.files.replace s.manifestPath new.source) :
        ExceptT Failure (StateM Disk) _).run.run d =
        (.ok ((Disk.files.replace s.manifestPath new.source).run d).1,
          ((Disk.files.replace s.manifestPath new.source).run d).2) := rfl
    simp only [run_bind]
    rw [hlift, run_replace]
    cases d.replace s.manifestPath new.source <;> rfl

end

theorem run_eq (d : Disk) (s : Settings) (mode : Mode) (wantsDiff : Bool) :
    d.run s mode wantsDiff =
      match d.decision s mode wantsDiff with
      | .error f => (.error f, d)
      | .ok p => d.carryOut s p := by
  unfold Disk.run Run.outcome decision
  simp only [run_bind, run_readFile, run_lift]
  cases d.readFile .header s.headerPath with
  | error e => rfl
  | ok header =>
  simp only [ok_bind]
  cases Run.headerVersion s header with
  | error e => rfl
  | ok version =>
  simp only [ok_bind]
  cases d.readFile .manifest s.manifestPath with
  | error e => rfl
  | ok source =>
  simp only [ok_bind]
  cases Run.manifestOf s source with
  | error e => rfl
  | ok m =>
  simp only [ok_bind]
  cases Run.plan s mode wantsDiff version m with
  | error e => rfl
  | ok p => exact run_store s p d

def requestOf (s : Settings) (mode : Mode) (wantsDiff : Bool) : Request :=
  ⟨s.headerPath, s.manifestPath, mode, wantsDiff⟩

def found (d : Disk) (s : Settings) : Except Failure (Triple × Manifest) := do
  let version ← Run.headerVersion s (← d.readFile .header s.headerPath)
  let manifest ← Run.manifestOf s (← d.readFile .manifest s.manifestPath)
  return (version, manifest)

theorem decision_eq_bind (d : Disk) (s : Settings) (mode : Mode) (wantsDiff : Bool) :
    d.decision s mode wantsDiff = d.found s >>= fun p => Run.plan s mode wantsDiff p.1 p.2 := by
  simp only [decision, found, bind_assoc, pure_bind]

theorem read_of_found {d : Disk} {s : Settings} {v : Triple} {m : Manifest}
    (h : d.found s = .ok (v, m)) : d.read s.manifestPath = .ok m.source := by
  obtain ⟨header, -, h⟩ := bind_eq_ok h
  obtain ⟨version, -, h⟩ := bind_eq_ok h
  obtain ⟨before, hbefore, h⟩ := bind_eq_ok h
  obtain ⟨manifest, hm, h⟩ := bind_eq_ok h
  cases h
  rw [Manifest.source_of_load (mapError_eq_ok hm)]
  exact mapError_eq_ok hbefore

theorem decision_eq_ok {d : Disk} {s : Settings} {mode : Mode} {wantsDiff : Bool} {p : Plan}
    (h : d.decision s mode wantsDiff = .ok p) : ∃ header version before m,
      d.read s.headerPath = .ok header ∧ (MarkerSet.ofStem s.stem).read header = .ok version ∧
      d.read s.manifestPath = .ok before ∧ Manifest.load before = .ok m ∧
      Plan.make (requestOf s mode wantsDiff) version.dotted m = .ok p := by
  obtain ⟨header, hheader, h⟩ := bind_eq_ok h
  obtain ⟨version, hversion, h⟩ := bind_eq_ok h
  obtain ⟨before, hbefore, h⟩ := bind_eq_ok h
  obtain ⟨m, hm, h⟩ := bind_eq_ok h
  exact ⟨header, version, before, m, mapError_eq_ok hheader, mapError_eq_ok hversion,
    mapError_eq_ok hbefore, mapError_eq_ok hm, mapError_eq_ok h⟩

/-- Everything a run can do: fail, report without a change, or store the rewritten manifest. -/
theorem run_cases (d : Disk) (s : Settings) (mode : Mode) (wantsDiff : Bool) :
    (∃ f, d.run s mode wantsDiff = (.error f, d)) ∨
    (∃ header version before m, d.read s.headerPath = .ok header ∧
      (MarkerSet.ofStem s.stem).read header = .ok version ∧
      d.read s.manifestPath = .ok before ∧ Manifest.load before = .ok m ∧
      ((version.dotted = m.version ∧ d.run s mode wantsDiff = (.ok (.synced m.version), d)) ∨
      (version.dotted ≠ m.version ∧ mode = .check ∧
        ∃ mismatch diff, d.run s mode wantsDiff = (.ok (.mismatch mismatch diff), d)) ∨
      (version.dotted ≠ m.version ∧ mode = .sync ∧
        ∃ new diff l d', m.rewrite version.dotted = .ok new ∧
          d.resolve s.manifestPath = .ok l ∧ Exchanged d d' l before new.source ∧
          d.run s mode wantsDiff = (.ok (.updated m.version version.dotted diff), d')))) := by
  rw [run_eq]
  cases hp : d.decision s mode wantsDiff with
  | error f => exact .inl ⟨f, rfl⟩
  | ok p =>
    obtain ⟨header, version, before, m, hheader, hversion, hbefore, hm, hmake⟩ := decision_eq_ok hp
    refine .inr ⟨header, version, before, m, hheader, hversion, hbefore, hm, ?_⟩
    rcases Plan.make_cases hmake with ⟨heq, rfl⟩ | ⟨hne, hmode, diff, rfl⟩ |
      ⟨hne, hmode, new, hnew, rfl⟩
    · exact .inl ⟨heq, rfl⟩
    · exact .inr (.inl ⟨hne, hmode, _, diff, rfl⟩)
    · obtain ⟨l, d', hl, hd', hexchanged⟩ := replace_of_read hbefore new.source
      refine .inr (.inr ⟨hne, hmode, new, Plan.diffOf (requestOf s mode wantsDiff) m new, l, d',
        hnew, hl, hexchanged, ?_⟩)
      simp only [carryOut, hd']

/-- The exact effect of a run. Only an update changes the disk, only sync mode updates, and what
it changes is the content of the file that the manifest path leads to. -/
theorem run_effect (d : Disk) (s : Settings) (mode : Mode) (wantsDiff : Bool) :
    match d.run s mode wantsDiff with
    | (.ok (.updated old new _), d') =>
      mode = .sync ∧ ∃ header version before m rewritten l,
        d.read s.headerPath = .ok header ∧
        (MarkerSet.ofStem s.stem).read header = .ok version ∧ new = version.dotted ∧
        d.read s.manifestPath = .ok before ∧ Manifest.load before = .ok m ∧ old = m.version ∧
        m.rewrite new = .ok rewritten ∧ rewritten.source ≠ before ∧
        d.resolve s.manifestPath = .ok l ∧ Exchanged d d' l before rewritten.source
    | (_, d') => d' = d := by
  rcases run_cases d s mode wantsDiff with ⟨f, hrun⟩ | ⟨header, version, before, m, hheader,
    hversion, hbefore, hm, ⟨-, hrun⟩ | ⟨-, -, mismatch, diff, hrun⟩ |
      ⟨hne, hmode, new, diff, l, d', hnew, hl, hexchanged, hrun⟩⟩
  · rw [hrun]
  · rw [hrun]
  · rw [hrun]
  · rw [hrun]
    have hsource : new.source ≠ before := by
      rw [← Manifest.source_of_load hm]
      exact Manifest.source_ne_of_rewriteWith hnew (Ne.symm hne)
    exact ⟨hmode, header, version, before, m, new, l, hheader, hversion, rfl, hbefore, hm, rfl,
      hnew, hsource, hl, hexchanged⟩

end Disk
end VersionDrift
