import KeyLedger.Proofs.Files.Listing
import KeyLedger.Proofs.Trash.AgeWindow

/-!
# What a collection deletes

A collection lists a directory, deletes the files of the listing that are old enough, and returns
their paths in order. It decides by the listing alone, while the disk changes under it with every
file that goes. So three things have to be shown: that the paths it makes from the names lead back
to the files, that deleting one file leaves the others where they are, and that the ages that the
listing tells are those of the files.

The first two are one step of the loop, and the loop then comes down to erasing some places of the
disk. Everything else that is said about a collection, such as that a second one finds nothing to
delete, is read off that disk.

## Main definitions

* `age`, `Disk.Expired` — how old a file is, and which files of a directory are old enough
* `Disk.expiredIn`, `Disk.expiredPlaces` — their names, as the directory lists them, and places
* `Disk.eraseAll` — a disk without what was at some places
* `Collected` — what a collection has done

## Main results

* `run_removeAll` — the loop that deletes
* `run_collectTrash` — the result of a collection
* `trash_collected_exactly` — a collection deletes what is old enough, and nothing else
-/

namespace KeyLedger

/-! ### The order of paths -/

/-- What two texts have in front does not count in their order. -/
theorem append_lt_append_iff (s a b : String) : s ++ a < s ++ b ↔ a < b := by
  simp only [String.lt_iff, String.toList_append]
  induction s.toList with
  | nil => rfl
  | cons c cs ih => rw [List.cons_append, List.cons_append, List.cons_lt_cons_self, ih]

/-- The paths of two items of a directory are in the order of their names. -/
theorem Path.join_lt_join_iff {dir : Path} {a b : String} (ha : IsName a) (hb : IsName b) :
    (dir.join a).text < (dir.join b).text ↔ a < b := by
  rw [join_eq_stem ha, join_eq_stem hb]
  exact append_lt_append_iff dir.stem a b

/-! ### Files that are old enough -/

/-- How old a file last modified at one time is at another. A file from the future has no age. -/
def age (modified now : Int) : Int := max 0 (now - modified)

theorem isExpired_iff {days : Nat} {modified now : Int} :
    isExpired days modified now = true ↔ (days : Int) * 86400 * 1000000000 ≤ age modified now := by
  rw [isExpired, age, decide_eq_true_iff]
  norm_cast

namespace Disk

variable {d d' : Disk} {dir : Path} {here q : Place} {name : String} {days : Nat} {now : Int}

/-- A regular file directly in a directory is at least so many days old, to the nanosecond. -/
def Expired (d : Disk) (here : Place) (days : Nat) (now : Int) (q : Place) : Prop :=
  ∃ name contents modified, q = here ++ [name] ∧ d.node? q = some (.file contents modified) ∧
    (days : Int) * 86400 * 1000000000 ≤ age modified now

/-- Whether a file is old enough is decided by what is at its place. -/
theorem Expired.congr (h : d.Expired here days now q) (hnode : d'.node? q = d.node? q) :
    d'.Expired here days now q := by
  obtain ⟨name, contents, modified, hq, hfile, hage⟩ := h
  exact ⟨name, contents, modified, hq, hnode.trans hfile, hage⟩

theorem Expired.node?_ne_dir (h : d.Expired here days now q) : d.node? q ≠ some .dir := by
  obtain ⟨_, _, _, _, hfile, _⟩ := h
  simp [hfile]

/-- What is old enough for a wider window is so for a narrower one. -/
theorem Expired.mono {wider : Nat} (h : d.Expired here wider now q) (hle : days ≤ wider) :
    d.Expired here days now q := by
  obtain ⟨name, contents, modified, hq, hfile, hage⟩ := h
  exact ⟨name, contents, modified, hq, hfile, by omega⟩

/-- What has just been written is not old enough for any window. -/
theorem not_expired_of_fresh {contents : Contents} (hpos : 1 ≤ days)
    (hfile : d.node? q = some (.file contents now)) : ¬ d.Expired here days now q := by
  rintro ⟨name, contents', modified, -, hfile', hage⟩
  obtain ⟨-, rfl⟩ : contents = contents' ∧ now = modified := by
    simpa [hfile'] using hfile.symm
  rw [age, Int.sub_self, max_self] at hage
  omega

/-- The names of the files of a directory that are old enough, as they are listed. -/
def expiredIn (d : Disk) (here : Place) (days : Nat) (now : Int) : List String :=
  ((d.filesIn here).filter fun i => isExpired days i.modified now).map DirItem.name

theorem Sound.mem_expiredIn (h : d.Sound) :
    name ∈ d.expiredIn here days now ↔ d.Expired here days now (here ++ [name]) := by
  simp only [expiredIn, List.mem_map, List.mem_filter, h.mem_filesIn, isExpired_iff]
  constructor
  · rintro ⟨i, ⟨⟨-, contents, hfile⟩, hage⟩, rfl⟩
    exact ⟨i.name, contents, i.modified, rfl, hfile, hage⟩
  · rintro ⟨name', contents, modified, hplace, hfile, hage⟩
    exact ⟨⟨name, true, modified⟩, ⟨⟨rfl, contents, hfile⟩, hage⟩, rfl⟩

/-- The places of the files of a directory that are old enough. -/
def expiredPlaces (d : Disk) (here : Place) (days : Nat) (now : Int) : List Place :=
  (d.expiredIn here days now).map fun name => here ++ [name]

theorem Sound.mem_expiredPlaces (h : d.Sound) :
    q ∈ d.expiredPlaces here days now ↔ d.Expired here days now q := by
  rw [expiredPlaces, List.mem_map]
  constructor
  · rintro ⟨name, hname, rfl⟩
    exact h.mem_expiredIn.mp hname
  · intro hq
    obtain ⟨name, _, _, rfl, _⟩ := id hq
    exact ⟨name, h.mem_expiredIn.mpr hq, rfl⟩

theorem Sound.nodup_expiredIn (h : d.Sound) (here : Place) (days : Nat) (now : Int) :
    (d.expiredIn here days now).Nodup :=
  (h.nodup_names here).sublist (List.filter_sublist.map _)

theorem Sound.isName_of_mem_expiredIn (h : d.Sound) (hname : name ∈ d.expiredIn here days now) :
    IsName name := by
  obtain ⟨_, _, _, _, hfile, _⟩ := h.mem_expiredIn.mp hname
  exact h.isName_of_file hfile

/-! ### Erasing places -/

/-- A disk without what was at some places. -/
def eraseAll (d : Disk) (qs : List Place) : Disk := qs.foldl erase d

theorem node?_erase (hq : d.node? q ≠ some .dir) (x : Place) :
    (d.erase q).node? x = if x = q then none else d.node? x := by
  split
  · next hx => rw [hx, node?_erase_self hq]
  · next hx => rw [node?_erase_of_ne hx]

theorem sameDirs_erase (hq : d.node? q ≠ some .dir) : SameDirs d (d.erase q) := by
  refine SameDirs.of_forall rfl fun x => ?_
  rw [node?_erase hq]
  split
  · next hx => exact .inr ⟨hx ▸ hq, fun h => nomatch h⟩
  · exact .inl rfl

/-- **Erasing some places** leaves all others as they are. -/
theorem node?_eraseAll {qs : List Place} (hqs : ∀ q ∈ qs, d.node? q ≠ some .dir) (x : Place) :
    (d.eraseAll qs).node? x = if x ∈ qs then none else d.node? x := by
  induction qs generalizing d with
  | nil => rfl
  | cons q qs ih =>
    obtain ⟨hq, hrest⟩ := List.forall_mem_cons.mp hqs
    have hnext : ∀ r ∈ qs, (d.erase q).node? r ≠ some .dir := by
      intro r hr
      rw [node?_erase hq]
      split
      · exact fun h => nomatch h
      · exact hrest r hr
    show ((d.erase q).eraseAll qs).node? x = _
    rw [ih hnext, node?_erase hq]
    by_cases hx : x = q <;> by_cases hmem : x ∈ qs <;> simp [hx, hmem]

/-- Nothing but the nodes changes. -/
theorem eraseAll_eq (d : Disk) (qs : List Place) :
    d.eraseAll qs = { d with nodes := (d.eraseAll qs).nodes } := by
  induction qs generalizing d with
  | nil => rfl
  | cons q qs ih => exact ih (d.erase q)

theorem Sound.eraseAll (h : d.Sound) (qs : List Place) : (d.eraseAll qs).Sound := by
  induction qs generalizing d with
  | nil => exact h
  | cons q qs ih => exact ih (h.erase q)

end Disk

/-! ### The loop -/

open Disk

variable {d d' : Disk} {dir : Path} {here : Place} {name : String} {days : Nat} {now : Int}

/-- One step: a file of a directory is deleted by the path that its name makes. -/
theorem run_remove (hdir : d.place? dir = some here) (hhere : d.node? here = some .dir)
    (hname : IsName name) {contents : Contents} {modified : Int}
    (hfile : d.node? (here ++ [name]) = some (.file contents modified)) :
    (attempt (.remove (dir.join name)) (removeFile (m := DiskM) (dir.join name))).run d =
      (.ok (), d.erase (here ++ [name])) :=
  DiskM.attempt_eq_ok_iff.mpr
    (DiskM.tryModify_of_ok (removeFile_eq_ok (locate_join hdir hhere hname) hfile))

/-- **The loop that deletes.** The directory and the files that are still to go stay where they are
from one step to the next. -/
theorem run_removeAll (h : d.Sound) (hdir : d.place? dir = some here)
    (hhere : d.node? here = some .dir) {names : List String} (hnodup : names.Nodup)
    (hfiles : ∀ name ∈ names, ∃ contents modified,
      d.node? (here ++ [name]) = some (.file contents modified)) :
    ((names.map dir.join).forM fun p => attempt (.remove p) (removeFile (m := DiskM) p)).run d =
      (.ok (), d.eraseAll (names.map fun name => here ++ [name])) := by
  induction names generalizing d with
  | nil => rfl
  | cons name names ih =>
    obtain ⟨hfresh, hrest⟩ := List.nodup_cons.mp hnodup
    obtain ⟨⟨contents, modified, hfile⟩, hothers⟩ := List.forall_mem_cons.mp hfiles
    have hsame : SameDirs d (d.erase (here ++ [name])) := sameDirs_erase (by simp [hfile])
    have hstill : ∀ other ∈ names, ∃ contents modified,
        (d.erase (here ++ [name])).node? (here ++ [other]) = some (.file contents modified) := by
      intro other hother
      have hne : here ++ [other] ≠ here ++ [name] := by
        simpa using fun heq : other = name => hfresh (heq ▸ hother)
      rw [node?_erase_of_ne hne]
      exact hothers other hother
    rw [List.map_cons, List.forM_eq_forM, List.forM_cons,
      DiskM.run_bind_of_ok _ (run_remove hdir hhere (h.isName_of_file hfile) hfile)]
    exact ih (h.erase _) ((hsame.place? dir).trans hdir) ((hsame.dirs here).mpr hhere) hrest hstill

/-! ### The whole collection -/

/-- There is nothing at a path. -/
def Disk.Missing (d : Disk) (p : Path) : Prop :=
  d.locate p = .error .notFound ∨ ∃ q, d.place? p = some q ∧ d.node? q = none

theorem run_collectTrash_of_missing (h : d.Missing dir) (days : Nat) (now : Int) :
    (collectTrash (m := DiskM) dir days now).run d = (.ok [], d) := by
  have hlist : d.listDir dir = .error .notFound := by
    rcases h with h | ⟨q, hq, hnone⟩
    · simp [Disk.listDir, h, bind, Except.bind]
    · obtain ⟨directory, hlocate⟩ := place?_eq_some_iff.mp hq
      simp [Disk.listDir, hlocate, hnone, bind, Except.bind]
  have hrun : (listDir dir : DiskM _) d = (.error .notFound, d) := Prod.ext hlist rfl
  rw [collectTrash, DiskM.run_liftM_bind, hrun]
  rfl

/-- **The result of a collection**: the places of the files that are old enough are erased, and
their paths are listed in the order of their names. -/
theorem run_collectTrash (h : d.Sound) (hdir : d.place? dir = some here)
    (hhere : d.node? here = some .dir) (days : Nat) (now : Int) :
    (collectTrash (m := DiskM) dir days now).run d =
      (.ok (((d.expiredIn here days now).mergeSort fun a b => decide (a ≤ b)).map dir.join),
        d.eraseAll (d.expiredPlaces here days now)) := by
  obtain ⟨items, hitems, hfiles⟩ := listDir_eq_ok hdir hhere
  have hrun : (listDir dir : DiskM _) d = (.ok items, d) := Prod.ext hitems rfl
  have hpaths : (items.filter fun i => i.isFile && isExpired days i.modified now).map
      (fun i => dir.join i.name) = (d.expiredIn here days now).map dir.join := by
    rw [expiredIn, ← hfiles, List.filter_filter, List.map_map]
    simp only [Bool.and_comm, Function.comp_def]
  have hremove := run_removeAll h hdir hhere (h.nodup_expiredIn here days now)
    fun name hname => by
      obtain ⟨_, contents, modified, _, hfile, _⟩ := h.mem_expiredIn.mp hname
      exact ⟨contents, modified, hfile⟩
  have horder : ∀ a ∈ d.expiredIn here days now, ∀ b ∈ d.expiredIn here days now,
      decide (a ≤ b) = decide ((dir.join a).text ≤ (dir.join b).text) := by
    intro a ha b hb
    rw [decide_eq_decide, ← String.not_lt, ← String.not_lt,
      Path.join_lt_join_iff (h.isName_of_mem_expiredIn hb) (h.isName_of_mem_expiredIn ha)]
  rw [collectTrash, DiskM.run_liftM_bind, hrun]
  simp only [hpaths]
  rw [DiskM.run_bind_of_ok _ hremove,
    List.map_mergeSort (s := fun p q => decide (p.text ≤ q.text)) horder]
  rfl

/-- What a collection has done to the files of a directory that are old enough. -/
structure Collected (d : Disk) (dir : Path) (here : Place) (days : Nat) (now : Int)
    (removed : List Path) (d' : Disk) : Prop where
  /-- Their paths are the result, in the order of their names. -/
  listed : ∃ names : List String, removed = names.map dir.join ∧ names.Pairwise (· < ·) ∧
    ∀ name, name ∈ names ↔ d.Expired here days now (here ++ [name])
  /-- Each path leads to its file. -/
  leads : ∀ name, d.Expired here days now (here ++ [name]) →
    d.place? (dir.join name) = some (here ++ [name])
  /-- The paths are in order, and none is there twice. -/
  sorted : removed.Pairwise fun p q => p.text < q.text
  /-- The files are gone. -/
  gone : ∀ q, d.Expired here days now q → d'.node? q = none
  /-- All else is still there, file or directory. -/
  kept : ∀ q, ¬ d.Expired here days now q → d'.node? q = d.node? q
  /-- Nothing but the nodes has changed. -/
  rest : d' = { d with nodes := d'.nodes }

/-- The names in order, each of them once. -/
theorem pairwise_lt_mergeSort {names : List String} (hnodup : names.Nodup) :
    (names.mergeSort fun a b => decide (a ≤ b)).Pairwise (· < ·) := by
  have hsorted : (names.mergeSort fun a b => decide (a ≤ b)).Pairwise
      fun a b => decide (a ≤ b) = true := by
    refine List.pairwise_mergeSort (fun a b c hab hbc => ?_) (fun a b => ?_) names
    · exact decide_eq_true (String.le_trans (of_decide_eq_true hab) (of_decide_eq_true hbc))
    · simpa using String.le_total a b
  have hdistinct := (List.mergeSort_perm names fun a b => decide (a ≤ b)).nodup_iff.mpr hnodup
  refine (hsorted.and hdistinct).imp fun {a b} ⟨hle, hne⟩ => ?_
  by_contra hlt
  exact hne (String.le_antisymm (of_decide_eq_true hle) (String.not_lt.mp hlt))

/-- **A collection succeeds**, and the disk stays sound. -/
theorem Disk.Sound.collected (h : d.Sound) (hdir : d.place? dir = some here)
    (hhere : d.node? here = some .dir) (days : Nat) (now : Int) :
    ∃ removed d', (collectTrash (m := DiskM) dir days now).run d = (.ok removed, d') ∧
      Collected d dir here days now removed d' ∧ d'.Sound := by
  refine ⟨_, _, run_collectTrash h hdir hhere days now, ?_, h.eraseAll _⟩
  set names := (d.expiredIn here days now).mergeSort fun a b => decide (a ≤ b) with hnames
  have hmem : ∀ name, name ∈ names ↔ d.Expired here days now (here ++ [name]) := by
    intro name
    rw [hnames, List.mem_mergeSort, h.mem_expiredIn]
  have hisName : ∀ name ∈ names, IsName name := fun name hname =>
    h.isName_of_mem_expiredIn (List.mem_mergeSort.mp hname)
  have hsorted : names.Pairwise (· < ·) := pairwise_lt_mergeSort (h.nodup_expiredIn here days now)
  have hfiles : ∀ q ∈ d.expiredPlaces here days now, d.node? q ≠ some .dir :=
    fun q hq => (h.mem_expiredPlaces.mp hq).node?_ne_dir
  refine ⟨⟨names, rfl, hsorted, hmem⟩, fun name hname => ?_, ?_, fun q hq => ?_, fun q hq => ?_,
    eraseAll_eq d _⟩
  · exact place?_eq_some_iff.mpr
      ⟨false, locate_join hdir hhere (hisName name ((hmem name).mpr hname))⟩
  · refine List.pairwise_map.mpr (hsorted.imp_of_mem fun {a b} ha hb hlt => ?_)
    exact (Path.join_lt_join_iff (hisName a ha) (hisName b hb)).mpr hlt
  · rw [node?_eraseAll hfiles, if_pos (h.mem_expiredPlaces.mpr hq)]
  · rw [node?_eraseAll hfiles, if_neg fun hmem => hq (h.mem_expiredPlaces.mp hmem)]

namespace Collected

variable {removed : List Path}

theorem sameDirs (h : Collected d dir here days now removed d') : SameDirs d d' := by
  refine SameDirs.of_forall (by rw [h.rest]) fun q => ?_
  by_cases hq : d.Expired here days now q
  · exact .inr ⟨hq.node?_ne_dir, by simp [h.gone q hq]⟩
  · exact .inl (h.kept q hq)

theorem mem_removed_iff (h : Collected d dir here days now removed d') {p : Path} :
    p ∈ removed ↔ ∃ name, d.Expired here days now (here ++ [name]) ∧ dir.join name = p := by
  obtain ⟨names, rfl, -, hmem⟩ := h.listed
  simp only [List.mem_map, hmem]

/-- Nothing that is left is old enough. -/
theorem not_expired (h : Collected d dir here days now removed d') (q : Place) :
    ¬ d'.Expired here days now q := by
  intro hq
  by_cases hold : d.Expired here days now q
  · obtain ⟨_, _, _, _, hfile, _⟩ := hq
    rw [h.gone q hold] at hfile
    cases hfile
  · exact hold (hq.congr (h.kept q hold).symm)

/-- A second collection has nothing to do. -/
theorem run_again (h : Collected d dir here days now removed d') (hsound : d'.Sound)
    (hdir : d.place? dir = some here) (hhere : d.node? here = some .dir) :
    (collectTrash (m := DiskM) dir days now).run d' = (.ok [], d') := by
  have hnone : d'.expiredIn here days now = [] :=
    List.eq_nil_iff_forall_not_mem.mpr fun name hname =>
      h.not_expired _ (hsound.mem_expiredIn.mp hname)
  rw [run_collectTrash hsound ((h.sameDirs.place? dir).trans hdir)
    ((h.sameDirs.dirs here).mpr hhere), expiredPlaces, hnone, List.mergeSort_nil]
  rfl

/-- With a wider window, less is deleted. -/
theorem mono {wider : Nat} {fewer : List Path} {d'' : Disk} (hle : days ≤ wider)
    (h : Collected d dir here days now removed d')
    (hwider : Collected d dir here wider now fewer d'') :
    fewer ⊆ removed ∧ ∀ q n, d'.node? q = some n → d''.node? q = some n := by
  constructor
  · intro p hp
    obtain ⟨name, hname, rfl⟩ := hwider.mem_removed_iff.mp hp
    exact h.mem_removed_iff.mpr ⟨name, hname.mono hle, rfl⟩
  · intro q n hq
    have hold : ¬ d.Expired here days now q := by
      intro hold
      rw [h.gone q hold] at hq
      cases hq
    rw [hwider.kept q fun hq' => hold (hq'.mono hle), ← h.kept q hold, hq]

end Collected

/-- **A collection deletes what is old enough, and nothing else.** On a sound disk, a directory that
does not exist is empty. In any other a collection, with a window that can be written, succeeds: it
deletes the files directly in the directory that are at least as old as the window and returns their
paths in order. Then a second one has nothing to do; one with a wider window would not delete more;
and what was written at the time of the collection is kept. -/
theorem trash_collected_exactly (h : d.Sound) (dir : Path) {token : String} {days : Nat}
    (hdays : parseAge? token = .ok days) (now : Int) :
    (d.Missing dir → (collectTrash (m := DiskM) dir days now).run d = (.ok [], d)) ∧
    ∀ here, d.place? dir = some here → d.node? here = some .dir →
      ∃ removed d', (collectTrash (m := DiskM) dir days now).run d = (.ok removed, d') ∧
        Collected d dir here days now removed d' ∧
        (collectTrash (m := DiskM) dir days now).run d' = (.ok [], d') ∧
        (∀ wider, days ≤ wider → ∃ fewer d'',
          (collectTrash (m := DiskM) dir wider now).run d = (.ok fewer, d'') ∧
            fewer ⊆ removed ∧ ∀ q n, d'.node? q = some n → d''.node? q = some n) ∧
        ∀ q contents, d.node? q = some (.file contents now) →
          d'.node? q = some (.file contents now) := by
  have hpos : 1 ≤ days := one_le_of_parseAge? hdays
  refine ⟨fun hmissing => run_collectTrash_of_missing hmissing days now, fun here hdir hhere => ?_⟩
  obtain ⟨removed, d', hrun, hcollected, hsound⟩ := h.collected hdir hhere days now
  refine ⟨removed, d', hrun, hcollected, hcollected.run_again hsound hdir hhere,
    fun wider hle => ?_, fun q contents hfile => ?_⟩
  · obtain ⟨fewer, d'', hrun', hcollected', -⟩ := h.collected hdir hhere wider now
    exact ⟨fewer, d'', hrun', hcollected.mono hle hcollected'⟩
  · rw [hcollected.kept q (not_expired_of_fresh hpos hfile), hfile]

/-- A quarantine in which one file is older than two days at the end of the second day of the
timeline, one is just that old, one is a nanosecond younger, one was written right then, and one
comes from the future. An old file in a directory below is none of its own. -/
def mixedTrash : Disk where
  home := ["w"]
  nodes := [
    (["w", "trash"], .dir), (["w", "trash", "below"], .dir),
    (["w", "trash", "below", "a.json"], .file (.text "{}") 0),
    (["w", "trash", "just.json"], .file (.text "{}") 0),
    (["w", "trash", "after.json"], .file (.text "{}") 172800000000001),
    (["w", "trash", "almost.json"], .file (.text "{}") 1),
    (["w", "trash", "before.json"], .file (.binary [255]) (-1)),
    (["w", "trash", "then.json"], .file (.text "{}") 172800000000000)]
  clock := 172800000000000
  journal := []
  capacity := none

/-- One path of the two goes nowhere; by the other, two files are deleted, and then no more. -/
theorem trash_collected_of_mixture :
    mixedTrash.Sound ∧ parseAge? " 2 d" = .ok 2 ∧ mixedTrash.Missing ⟨"attic/trash"⟩ ∧
      (collectTrash (m := DiskM) ⟨"attic/trash"⟩ 2 172800000000000).run mixedTrash =
        (.ok [], mixedTrash) ∧
      ∃ d', (collectTrash (m := DiskM) ⟨"./trash/"⟩ 2 172800000000000).run mixedTrash =
          (.ok [⟨"./trash/before.json"⟩, ⟨"./trash/just.json"⟩], d') ∧
        (collectTrash (m := DiskM) ⟨"./trash/"⟩ 2 172800000000000).run d' = (.ok [], d') ∧
        d'.node? ["w", "trash", "just.json"] = none ∧
        d'.node? ["w", "trash", "then.json"] = some (.file (.text "{}") 172800000000000) := by
  have hsound : mixedTrash.Sound := by decide
  have hage : parseAge? " 2 d" = .ok 2 := by decide +kernel
  have hmissing : mixedTrash.Missing ⟨"attic/trash"⟩ := .inl (by decide +kernel)
  have hdir : mixedTrash.place? ⟨"./trash/"⟩ = some ["w", "trash"] := by decide +kernel
  have hhere : mixedTrash.node? ["w", "trash"] = some .dir := by decide
  obtain ⟨removed, d', hrun, hcollected, hagain, -, hfresh⟩ :=
    (trash_collected_exactly hsound ⟨"./trash/"⟩ hage 172800000000000).2 _ hdir hhere
  have hnames : (mixedTrash.expiredIn ["w", "trash"] 2 172800000000000).mergeSort
      (fun a b => decide (a ≤ b)) = ["before.json", "just.json"] := by
    rw [show mixedTrash.expiredIn ["w", "trash"] 2 172800000000000 =
      ["just.json", "before.json"] by decide +kernel]
    simp [List.mergeSort]
  have hremoved : removed = [⟨"./trash/before.json"⟩, ⟨"./trash/just.json"⟩] := by
    rw [run_collectTrash hsound hdir hhere, hnames] at hrun
    exact (Except.ok.inj (congrArg Prod.fst hrun)).symm
  have hexpired : mixedTrash.Expired ["w", "trash"] 2 172800000000000
      ["w", "trash", "just.json"] := ⟨"just.json", .text "{}", 0, rfl, by decide, by decide⟩
  exact ⟨hsound, hage, hmissing,
    (trash_collected_exactly hsound ⟨"attic/trash"⟩ hage 172800000000000).1 hmissing, d',
    hremoved ▸ hrun, hagain, hcollected.gone _ hexpired, hfresh _ _ (by decide)⟩

end KeyLedger
