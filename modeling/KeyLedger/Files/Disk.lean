import KeyLedger.Files.Basic

/-!
# A disk as a value

A disk maps places to nodes. A place is the list of names on the way from the root; the root itself
is always a directory. One place is the working directory, which is there whatever happens, and with
it the directories above it.

An absolute path is followed from the root, any other from the working directory. Either goes
through the directories on its way, so a missing directory, or a file in the place of one, is
noticed where it stands.

Every file knows when it was last written. The disk has a clock, which stands still while an
operation runs, and a journal of the files that were written.

A disk may have room for so many bytes and no more. A file is emptied before it is written, and then
it is filled as far as there is room, so a write that finds the disk full leaves a part of what was
to be written. Any other operation that fails leaves the disk alone, except that the directories
made before a failure stay.

What is left out: there are files and directories, but no links, so no two places share a file and
what is written at a place is written nowhere else; nobody is denied anything, so the operations
fail for what is, or is not, in a place and for want of room alone; and only the bytes of files take
room, not names and directories.

## Main definitions

* `Contents`, `Node`, `Disk` — disks
* `Disk.node?` — what is at a place
* `Disk.locate` — the place that a path leads to
* `Disk.cutoff?` — how far a write gets
* `Disk.fromHome?` — the name of a place from the working directory
* `Disk.readText`, `Disk.writeFile`, `Disk.createDirs`, `Disk.rename`, `Disk.removeFile`,
  `Disk.listDir` — the operations
* `DiskM` — the file system whose state is a disk
-/

namespace KeyLedger

/-- The contents of a file. -/
inductive Contents where
  /-- Bytes that are the UTF-8 form of a text. -/
  | text (s : String)
  /-- Bytes that are no text. -/
  | binary (bytes : List UInt8)
deriving DecidableEq

/-- The contents with the given bytes. -/
def Contents.ofBytes (bytes : List UInt8) : Contents :=
  match String.fromUTF8? ⟨bytes.toArray⟩ with
  | some s => .text s
  | none => .binary bytes

/-- The bytes of a file. -/
def Contents.bytes : Contents → List UInt8
  | .text s => s.toByteArray.data.toList
  | .binary bytes => bytes

/-- What is there of a file of which so many bytes were written. -/
def Contents.take (n : Nat) (c : Contents) : Contents := .ofBytes (c.bytes.take n)

/-- What may be at a place. -/
inductive Node where
  /-- A file, and when it was last written. -/
  | file (contents : Contents) (modified : Int)
  /-- A directory. -/
  | dir
deriving DecidableEq

/-- How many bytes of a disk a node takes. -/
def Node.size : Node → Nat
  | .file contents _ => contents.bytes.length
  | .dir => 0

/-- The names on the way from the root. -/
abbrev Place : Type := List String

/-- A file system. -/
structure Disk where
  /-- The working directory. -/
  home : Place
  /-- The nodes other than the working directory and those above it. -/
  nodes : List (Place × Node)
  /-- The current time, in nanoseconds on the timeline. -/
  clock : Int
  /-- The files written since the journal was opened. -/
  journal : List Place
  /-- How many bytes the files can have together, if there is a limit. -/
  capacity : Option Nat
deriving DecidableEq

namespace Disk

/-- A disk with nothing on it but its working directory, and with room for anything. -/
def blank (home : Place) (clock : Int) : Disk := ⟨home, [], clock, [], none⟩

/-- What is at a place. -/
def node? (d : Disk) (p : Place) : Option Node :=
  if p.isPrefixOf d.home then some .dir else d.nodes.lookup p

/-- Removes what is at a place. -/
def erase (d : Disk) (p : Place) : Disk :=
  { d with nodes := d.nodes.filter fun n => n.1 ≠ p }

/-- Puts a node at a place. -/
def put (d : Disk) (p : Place) (n : Node) : Disk :=
  { d with nodes := (d.erase p).nodes ++ [(p, n)] }

/-- Records that the file at a place was written. -/
def log (d : Disk) (p : Place) : Disk :=
  { d with journal := p :: d.journal.filter (· ≠ p) }

/-- Puts a file at a place and records that it was written. -/
def fill (d : Disk) (p : Place) (contents : Contents) : Disk :=
  (d.put p (.file contents d.clock)).log p

/-! ### Room -/

/-- How many bytes the files have together. -/
def load (d : Disk) : Nat := d.nodes.foldl (fun sum n => sum + n.2.size) 0

/-- After how many bytes a write to a place breaks off, if it does. There is room for the bytes that
are free and for those that the file has now, which go first. -/
def cutoff? (d : Disk) (p : Place) (contents : Contents) : Option Nat :=
  let old := ((d.node? p).map Node.size).getD 0
  (d.capacity.map fun limit => limit - d.load + old).filter (· < contents.bytes.length)

/-! ### Following a path -/

/-- From one directory into another. The root is its own parent. -/
def enter (d : Disk) (here : Place) (segment : String) : Except IoError Place :=
  if segment = "." then .ok here
  else if segment = ".." then .ok here.dropLast
  else
    match d.node? (here ++ [segment]) with
    | some .dir => .ok (here ++ [segment])
    | some (.file _ _) => .error .notDirectory
    | none => .error .notFound

/-- Where a path starts. -/
def origin (d : Disk) (p : Path) : Place := if p.isAbsolute then [] else d.home

/-- Where a path leads. -/
structure Target where
  /-- The place. -/
  place : Place
  /-- Whether the path can only name a directory. -/
  directory : Bool
deriving DecidableEq, Repr

/-- The place that a path leads to; all but its last name have to be directories. A path that ends
in dots leads to a directory that exists. -/
def locate (d : Disk) (p : Path) : Except IoError Target :=
  let names := p.segments.filter (· ≠ "")
  if p.text = "" then .error .notFound
  else
    match names.getLast? with
    | none => .ok ⟨d.origin p, true⟩
    | some last =>
      if last = "." ∨ last = ".." then do
        let here ← names.foldlM d.enter (d.origin p)
        return ⟨here, true⟩
      else do
        let here ← names.dropLast.foldlM d.enter (d.origin p)
        return ⟨here ++ [last], p.segments.getLast? != some last⟩

/-! ### Operations -/

/-- The text of a file. -/
def readText (d : Disk) (p : Path) : Except IoError String := do
  let target ← d.locate p
  match d.node? target.place with
  | none => .error .notFound
  | some .dir => .error .isDirectory
  | some (.file contents _) =>
    if target.directory then .error .notDirectory
    else
      match contents with
      | .text s => .ok s
      | .binary _ => .error .notText

/-- Replaces the contents of a file, as far as there is room. -/
def writeFile (d : Disk) (p : Path) (contents : Contents) : Disk × Except IoError Unit :=
  match d.locate p with
  | .error e => (d, .error e)
  | .ok target =>
    if target.directory || d.node? target.place == some .dir then (d, .error .isDirectory)
    else
      match d.cutoff? target.place contents with
      | none => (d.fill target.place contents, .ok ())
      | some n => (d.fill target.place (contents.take n), .error .noSpace)

/-- The disk after the contents of a file were replaced, if they could be. -/
def write (d : Disk) (p : Path) (contents : Contents) : Except IoError Disk :=
  match d.writeFile p contents with
  | (d', .ok ()) => .ok d'
  | (_, .error e) => .error e

/-- Makes the directories of a list of segments below one, as far as they are missing. A file in
the way is reported as no directory; but at the end of the way, and once a directory was made, what
is missed is a place for the next directory, and the file is reported as being there. -/
def createFrom (d : Disk) (made : Bool) (here : Place) : List String → Disk × Except IoError Unit
  | [] => (d, .ok ())
  | s :: ss =>
    if s = "" ∨ s = "." then d.createFrom made here ss
    else if s = ".." then d.createFrom made here.dropLast ss
    else
      match d.node? (here ++ [s]) with
      | some .dir => d.createFrom made (here ++ [s]) ss
      | some (.file _ _) =>
        (d, .error (if made || ss.all String.isEmpty then .alreadyExists else .notDirectory))
      | none => (d.put (here ++ [s]) .dir).createFrom true (here ++ [s]) ss

/-- Makes a directory and those above it. -/
def createDirs (d : Disk) (p : Path) : Disk × Except IoError Unit :=
  d.createFrom false (d.origin p) p.segments

/-- Moves a file, replacing a file at the new path. Directories that go by dots, and the root, are
in use. -/
def rename (d : Disk) (old new : Path) : Except IoError Disk := do
  let source ← d.locate old
  let target ← d.locate new
  if !(old.endsInName && new.endsInName) then .error .busy
  else
    match d.node? source.place with
    | some (.file contents modified) =>
      if target.directory then .error .notDirectory
      else if d.node? target.place = some .dir then .error .isDirectory
      else
        let moved := (d.erase source.place).put target.place (.file contents modified)
        .ok (if d.journal.contains source.place then moved.log target.place else moved)
    | some .dir => .error .isDirectory
    | none => .error .notFound

/-- Deletes a file. -/
def removeFile (d : Disk) (p : Path) : Except IoError Disk := do
  let target ← d.locate p
  match d.node? target.place with
  | none => .error .notFound
  | some .dir => .error .isDirectory
  | some (.file _ _) =>
    if target.directory then .error .notDirectory else .ok (d.erase target.place)

/-- Deletes a directory and all that is below it. -/
def removeTree (d : Disk) (p : Path) : Except IoError Disk := do
  let target ← d.locate p
  match d.node? target.place with
  | none => .error .notFound
  | some (.file _ _) => .error .notDirectory
  | some .dir =>
    .ok { d with nodes := d.nodes.filter fun n => !target.place.isPrefixOf n.1 }

/-- A node as an item of the directory that it is in. -/
def item? (here : Place) (n : Place × Node) : Option DirItem :=
  match n.1.getLast? with
  | none => none
  | some name =>
    if n.1 = here ++ [name] then
      match n.2 with
      | .file _ modified => some ⟨name, true, modified⟩
      | .dir => some ⟨name, false, 0⟩
    else none

/-- The item of a directory that leads to the working directory. -/
def wayHome? (d : Disk) (here : Place) : Option DirItem :=
  if here.isPrefixOf d.home then
    (d.home.drop here.length).head?.map fun name => ⟨name, false, 0⟩
  else none

/-- The items of a directory. -/
def listDir (d : Disk) (p : Path) : Except IoError (List DirItem) := do
  let target ← d.locate p
  match d.node? target.place with
  | none => .error .notFound
  | some (.file _ _) => .error .notDirectory
  | some .dir =>
    .ok ((d.wayHome? target.place).toList ++ d.nodes.filterMap (item? target.place))

/-- A place as it is named from the working directory, if it is below it. -/
def fromHome? (d : Disk) (p : Place) : Option Place :=
  if d.home.isPrefixOf p then some (p.drop d.home.length) else none

/-- The files, by place. -/
def files (d : Disk) : List (Place × Contents) :=
  d.nodes.filterMap fun n =>
    match n.2 with
    | .file contents _ => some (n.1, contents)
    | .dir => none

/-- The directories with nothing in them. -/
def emptyDirs (d : Disk) : List Place :=
  d.nodes.filterMap fun n =>
    if n.2 = .dir ∧ d.nodes.all (fun o => o.1 = n.1 ∨ !n.1.isPrefixOf o.1) then some n.1 else none

/-- The files in the journal that are still there. -/
def written (d : Disk) : List Place :=
  d.journal.filter fun p =>
    match d.node? p with
    | some (.file _ _) => true
    | _ => false

/-- The same disk with an empty journal and the clock at the given time. -/
def openJournal (d : Disk) (clock : Int) : Disk :=
  { d with clock, journal := [] }

end Disk

/-- Computations on a disk. -/
abbrev DiskM : Type → Type := StateM Disk

/-- An operation that changes the disk only if it succeeds. -/
def DiskM.tryModify (f : Disk → Except IoError Disk) : DiskM (Except IoError Unit) := fun d =>
  match f d with
  | .ok d' => (.ok (), d')
  | .error e => (.error e, d)

instance : MonadFiles DiskM where
  readText p := fun d => (d.readText p, d)
  writeText p s := fun d => let (d', r) := d.writeFile p (.text s); (r, d')
  createDirs p := fun d => let (d', r) := d.createDirs p; (r, d')
  rename old new := DiskM.tryModify fun d => d.rename old new
  removeFile p := DiskM.tryModify fun d => d.removeFile p
  listDir p := fun d => (d.listDir p, d)

end KeyLedger
