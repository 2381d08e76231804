import VersionDrift.CommandLine.Arguments
import VersionDrift.CommandLine.Program
import VersionDrift.Decimal.Binary64
import VersionDrift.Decimal.Natural
import VersionDrift.Decimal.Positional
import VersionDrift.Decimal.Scientific
import VersionDrift.Decimal.Shortest
import VersionDrift.Diff.Hunk
import VersionDrift.Diff.Script
import VersionDrift.Diff.Unified
import VersionDrift.Failure
import VersionDrift.Files.Access
import VersionDrift.Files.Disk
import VersionDrift.Files.Error
import VersionDrift.Files.Path
import VersionDrift.Header.Marker
import VersionDrift.Header.Reading
import VersionDrift.Header.Triple
import VersionDrift.Main
import VersionDrift.Manifest.Document
import VersionDrift.Manifest.Field
import VersionDrift.Manifest.Located
import VersionDrift.Manifest.Scalar
import VersionDrift.Outcome
import VersionDrift.Report.Lines
import VersionDrift.Report.Paint
import VersionDrift.Run
import VersionDrift.Settings.Configuration
import VersionDrift.Settings.Fault
import VersionDrift.Settings.Settings
import VersionDrift.Text.Basic
import VersionDrift.Text.Blank
import VersionDrift.Text.Escaped
import VersionDrift.Text.Extending
import VersionDrift.Text.Line
import VersionDrift.Text.Unprintable
import VersionDrift.Toml.Blank
import VersionDrift.Toml.Document
import VersionDrift.Toml.Error
import VersionDrift.Toml.Quoted
import VersionDrift.Toml.Reading
import VersionDrift.Toml.Scalar
import VersionDrift.Toml.Value
import VersionDrift.Yaml.BlockScalar
import VersionDrift.Yaml.Character
import VersionDrift.Yaml.Composition
import VersionDrift.Yaml.Cursor
import VersionDrift.Yaml.Document
import VersionDrift.Yaml.Error
import VersionDrift.Yaml.Gap
import VersionDrift.Yaml.Layout
import VersionDrift.Yaml.Node
import VersionDrift.Yaml.Number
import VersionDrift.Yaml.PlainScalar
import VersionDrift.Yaml.Property
import VersionDrift.Yaml.QuotedScalar
import VersionDrift.Yaml.Resolution
import VersionDrift.Yaml.Token
import VersionDrift.Yaml.Tokens
import VersionDrift.Yaml.Value
import VersionDrift.Proofs.Except
import VersionDrift.Proofs.Files.Replacement
import VersionDrift.Proofs.Manifest.Scalar
import VersionDrift.Proofs.Manifest.Place
import VersionDrift.Proofs.Manifest.Rewriting
import VersionDrift.Proofs.Run.Effect
import VersionDrift.Proofs.Run.Convergence
import VersionDrift.Proofs.Run.Agreement
import VersionDrift.Proofs.Summed
import VersionDrift.Proofs.Yaml.Composed
import VersionDrift.Proofs.Yaml.Valued
import VersionDrift.Proofs.Yaml.Parts
import VersionDrift.Proofs.Yaml.Sourced
import VersionDrift.Proofs.Yaml.Changed
import VersionDrift.Proofs.Manifest.Dotted
import VersionDrift.Proofs.Manifest.Meaning
import VersionDrift.Proofs.Yaml.Lockstep
import VersionDrift.Proofs.Yaml.Forward
import VersionDrift.Proofs.Yaml.Forked
import VersionDrift.Proofs.Yaml.Readers
import VersionDrift.Proofs.Yaml.Steady
import VersionDrift.Proofs.Yaml.Progress
import VersionDrift.Proofs.Yaml.Shifted
import VersionDrift.Proofs.Yaml.Spelled
import VersionDrift.Proofs.Yaml.Replaced
import VersionDrift.Proofs.Manifest.Tokens
import VersionDrift.Proofs.Manifest.Relocated
import VersionDrift.Proofs.Manifest.History
import VersionDrift.Proofs.Diff.Hunk
import VersionDrift.Proofs.CommandLine.Valid
import VersionDrift.Proofs.Run.Preview
import VersionDrift.Proofs.Run.Project
import VersionDrift.Proofs.CommandLine.Display
import VersionDrift.Proofs.Diff.Patch
import VersionDrift.Proofs.Report.Printed
import VersionDrift.Proofs.CommandLine.Shown
import VersionDrift.Proofs.Manifest.Framed
import VersionDrift.Proofs.Header.Defined
import VersionDrift.Proofs.Run.Syntax
import VersionDrift.Proofs.Yaml.Fields
import VersionDrift.Proofs.Manifest.Numbered
import VersionDrift.Proofs.Yaml.Word
import VersionDrift.Proofs.Yaml.Number
import VersionDrift.Proofs.Diff.Framed
import VersionDrift.Proofs.Diff.Reversed
import VersionDrift.Proofs.Yaml.Pointed
import VersionDrift.Proofs.Yaml.Moves
import VersionDrift.Proofs.Yaml.Ending
import VersionDrift.Proofs.Yaml.OneEntry
import VersionDrift.Proofs.Manifest.Written
import VersionDrift.Proofs.Manifest.Scanned
import VersionDrift.Proofs.Yaml.Local
import VersionDrift.Proofs.Yaml.Entered
import VersionDrift.Proofs.Yaml.Template
import VersionDrift.Proofs.Yaml.Revalued
import VersionDrift.Proofs.Yaml.AfterColon
import VersionDrift.Proofs.Yaml.AfterScalar
import VersionDrift.Proofs.Manifest.Ordinary
import VersionDrift.Proofs.Header.Lines
import VersionDrift.Proofs.Header.Missing
import VersionDrift.Proofs.Files.Followed
import VersionDrift.Proofs.Run.Configured
import VersionDrift.Proofs.Diff.Exchanged
import VersionDrift.Proofs.Run.Drifted
import VersionDrift.Proofs.Manifest.Restored
import VersionDrift.Proofs.Manifest.Section
import VersionDrift.Proofs.Manifest.Converted
import VersionDrift.Proofs.Text.Offset
import VersionDrift.Proofs.Manifest.Cut
import VersionDrift.Proofs.Manifest.Spanned
