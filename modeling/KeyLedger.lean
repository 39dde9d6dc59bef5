import KeyLedger.Candidate.Basic
import KeyLedger.Candidate.Wire
import KeyLedger.CommandLine
import KeyLedger.Dict
import KeyLedger.Digest.ContentHash
import KeyLedger.Digest.Sha256
import KeyLedger.Distinct
import KeyLedger.Failure
import KeyLedger.Files.Basic
import KeyLedger.Files.Disk
import KeyLedger.Files.Path
import KeyLedger.Files.System
import KeyLedger.Files.Write
import KeyLedger.Json.Basic
import KeyLedger.Json.Document
import KeyLedger.Json.Printer
import KeyLedger.Json.Quoted
import KeyLedger.Json.Reader
import KeyLedger.Json.Token
import KeyLedger.Locale.Files
import KeyLedger.Locale.Merge
import KeyLedger.Locale.Nested
import KeyLedger.Main
import KeyLedger.Manifest.Basic
import KeyLedger.Manifest.Wire
import KeyLedger.Numeral.Binary64
import KeyLedger.Numeral.Number
import KeyLedger.Numeral.Shortest
import KeyLedger.Patch.Apply
import KeyLedger.Patch.Basic
import KeyLedger.Patch.Header
import KeyLedger.Patch.Plan
import KeyLedger.Patch.Preview
import KeyLedger.Patch.Wire
import KeyLedger.Quarantine
import KeyLedger.Reconcile.Basic
import KeyLedger.Reconcile.Outcome
import KeyLedger.Report
import KeyLedger.Settings
import KeyLedger.Store
import KeyLedger.Text.Blank
import KeyLedger.Text.Bytes
import KeyLedger.Text.Hex
import KeyLedger.Text.Lines
import KeyLedger.Text.Normal
import KeyLedger.Time.Date
import KeyLedger.Time.Instant
import KeyLedger.Time.Text
import KeyLedger.Workflow
import KeyLedger.Proofs.Reconcile.Log
import KeyLedger.Proofs.Reconcile.Slots
import KeyLedger.Proofs.Reconcile.Lineage
import KeyLedger.Proofs.Reconcile.Observations
import KeyLedger.Proofs.Reconcile.Reservations
import KeyLedger.Proofs.Reconcile.Rescan
import KeyLedger.Proofs.Dict
import KeyLedger.Proofs.Json.Scalars
import KeyLedger.Proofs.Json.Tokens
import KeyLedger.Proofs.Json.Documents
import KeyLedger.Proofs.Json.Canonical
import KeyLedger.Proofs.Json.Readers
import KeyLedger.Proofs.Manifest.Wire
import KeyLedger.Proofs.Files.Disk
import KeyLedger.Proofs.Files.Write
import KeyLedger.Proofs.Manifest.Reachable
import KeyLedger.Proofs.Reconcile.Idempotence
import KeyLedger.Proofs.Sorting
import KeyLedger.Proofs.Manifest.Order
import KeyLedger.Proofs.Reconcile.Settling
import KeyLedger.Proofs.Files.Atomic
import KeyLedger.Proofs.Files.Stable
import KeyLedger.Proofs.Manifest.ByteStable
import KeyLedger.Proofs.Patch.Outcomes
import KeyLedger.Proofs.Patch.Planning
import KeyLedger.Proofs.Patch.Writing
import KeyLedger.Proofs.Patch.DryRun
import KeyLedger.Proofs.Manifest.RoundTrip
import KeyLedger.Proofs.Locale.Nested
import KeyLedger.Proofs.Locale.Updates
import KeyLedger.Proofs.Locale.Merge
import KeyLedger.Proofs.Locale.Translations
import KeyLedger.Proofs.Reconcile.Precedence
import KeyLedger.Proofs.Reconcile.Revival
import KeyLedger.Proofs.Locale.Overwriting
import KeyLedger.Proofs.Locale.Quarantine
import KeyLedger.Proofs.Locale.Repetition
import KeyLedger.Proofs.Json.Arrangements
import KeyLedger.Proofs.Exchange
import KeyLedger.Proofs.Patch.Turns
import KeyLedger.Proofs.Patch.Overlaps
import KeyLedger.Proofs.Text.Bytes
import KeyLedger.Proofs.Text.Lines
import KeyLedger.Proofs.Patch.Splicing
import KeyLedger.Proofs.Patch.Rearrangement
import KeyLedger.Proofs.Patch.Header
import KeyLedger.Proofs.Patch.Injection
import KeyLedger.Proofs.Patch.Insertion
import KeyLedger.Proofs.Patch.Extension
import KeyLedger.Proofs.Patch.Consolidation
import KeyLedger.Proofs.Locale.SourceTexts
import KeyLedger.Proofs.Locale.Marks
import KeyLedger.Proofs.Text.Words
import KeyLedger.Proofs.Text.ByteOrder
import KeyLedger.Proofs.Locale.DottedKeys
import KeyLedger.Proofs.Manifest.Rearrangement
import KeyLedger.Proofs.Json.Reordering
import KeyLedger.Proofs.Files.Listing
import KeyLedger.Proofs.Trash.AgeWindow
import KeyLedger.Proofs.Trash.Expiry
import KeyLedger.Proofs.Patch.Preview
import KeyLedger.Proofs.Counts
