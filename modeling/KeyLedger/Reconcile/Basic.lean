import KeyLedger.Digest.ContentHash
import KeyLedger.Reconcile.Outcome

/-!
# Reconciling candidates with the manifest

Candidates are matched in two passes, so that the place of a keyed candidate in the input does not
matter. In the first pass every candidate whose slot is held in the manifest claims the first entry
that holds it. In the second pass the other candidates, in input order, adopt the earliest entry
that is still free and has the same content hash, or else become new entries. An entry is not
adopted into a namespace where its key would clash, and a candidate whose slot is already taken is
dropped as a duplicate.

## Main definitions

* `Progress` — what has been decided so far
* `Progress.claim` — the first pass for one candidate
* `Progress.settle` — the second pass for one candidate
* `reconcile` — the outcome of a run
-/

namespace KeyLedger

/-- The status of an entry that is found again: an orphan comes back as extracted. -/
def Status.revived : Status → Status
  | .orphaned => .extracted
  | s => s

/-- An entry as it stands after `c` was found to be it. -/
def Entry.seenAs (e : Entry) (c : Candidate) (now : Instant) : Entry :=
  { e with
    file := c.loc.file
    tag := c.tag
    status := e.status.revived
    contentHash := Digest.contentHash c.text
    start := c.loc.start
    stop := c.loc.stop
    lastSeen := now }

/-- The entry of a text that is found for the first time. -/
def Entry.ofCandidate (c : Candidate) (now : Instant) : Entry :=
  { file := c.loc.file
    ns := c.ns
    key := c.keyHint
    tag := c.tag
    status := .extracted
    contentHash := Digest.contentHash c.text
    fingerprint := .at c.tag c.loc.start
    start := c.loc.start
    stop := c.loc.stop
    lastSeen := now
    lastCommit := none }

/-- What has been decided in the course of a run. -/
structure Progress where
  /-- The indices of the entries found so far. -/
  matched : List Nat
  /-- The slots that are taken in the next manifest. -/
  claimed : List Slot
  /-- New entries so far. -/
  created : List Entry
  /-- Changed entries so far. -/
  updated : List Update
  /-- Unchanged entries so far. -/
  unchanged : List Entry
deriving DecidableEq

namespace Progress

/-- Nothing has been decided. -/
def start : Progress := ⟨[], [], [], [], []⟩

/-- Takes the slot of an entry, if it has one. -/
def take (p : Progress) (s : Option Slot) : Progress :=
  { p with claimed := s.toList ++ p.claimed }

end Progress

/-- The entry that a candidate claims by its key, with its index. -/
def Manifest.claimedBy? (m : Manifest) (c : Candidate) : Option (Entry × Nat) :=
  c.slot? >>= m.owner?

/-- First pass for one candidate: it claims the entry that holds its slot, unless an earlier
candidate did. -/
def Progress.claim (m : Manifest) (now : Instant) (p : Progress) (c : Candidate) : Progress :=
  match m.claimedBy? c with
  | none => p
  | some (e, i) =>
    if p.matched.contains i then p
    else
      let found := e.seenAs c now
      let p := { p.take e.slot? with matched := i :: p.matched }
      if found.contentHash = e.contentHash then { p with unchanged := p.unchanged ++ [found] }
      else { p with updated := p.updated ++ [⟨e, found⟩] }

/-- Whether the entry with index `i` may move to a namespace without two entries ending up with
one slot. -/
def Progress.canAdopt (m : Manifest) (p : Progress) (e : Entry) (i : Nat) (ns : String) : Bool :=
  match e.key with
  | none => true
  | some key =>
    !p.claimed.contains ⟨ns, key⟩ &&
      match m.owner? ⟨ns, key⟩ with
      | some (_, owner) => owner == i
      | none => true

/-- The earliest free entry with the content hash of a candidate that it may adopt. -/
def Progress.adoptable? (m : Manifest) (p : Progress) (c : Candidate) : Option (Entry × Nat) :=
  let hash := Digest.contentHash c.text
  m.entries.zipIdx.find? fun (e, i) =>
    e.contentHash == hash && !p.matched.contains i && p.canAdopt m e i c.ns

/-- Second pass for one candidate: it adopts a free entry, becomes a new one, or is dropped because
its slot is taken. -/
def Progress.settle (m : Manifest) (now : Instant) (p : Progress) (c : Candidate) : Progress :=
  match p.adoptable? m c with
  | some (e, i) =>
    let found := { e.seenAs c now with ns := c.ns }
    { p.take found.slot? with
      matched := i :: p.matched
      unchanged := p.unchanged ++ [found] }
  | none =>
    if c.slot?.any p.claimed.contains then p
    else { p.take c.slot? with created := p.created ++ [Entry.ofCandidate c now] }

/-- The candidates that claim no entry by their key. -/
def Manifest.unclaimed (m : Manifest) (candidates : List Candidate) : List Candidate :=
  candidates.filter fun c => (m.claimedBy? c).isNone

/-- Both passes. -/
def Progress.run (m : Manifest) (candidates : List Candidate) (now : Instant) : Progress :=
  (m.unclaimed candidates).foldl (settle m now) (candidates.foldl (claim m now) start)

/-- The outcome of a run. -/
def reconcile (candidates : List Candidate) (m : Manifest) (now : Instant) : Outcome :=
  let p := Progress.run m candidates now
  { created := p.created
    updated := p.updated
    unchanged := p.unchanged
    orphaned := m.orphans p.matched
    matched := p.matched.mergeSort }

/-- The manifest that follows a run. -/
def nextManifest (candidates : List Candidate) (m : Manifest) (now : Instant) : Manifest :=
  let o := reconcile candidates m now
  o.assemble m.version o.orphaned

end KeyLedger
