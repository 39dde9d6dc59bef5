import KeyLedger.Proofs.Files.Write
import KeyLedger.Proofs.Manifest.Wire
import KeyLedger.Proofs.Reconcile.Slots
import KeyLedger.Store

/-!
# The manifests that a project can reach

A project starts without a manifest. Every run makes the next one, and between two runs a manifest
may be stored in a file and read again, which puts its entries in order. In all the manifests that
can be reached this way slots are unique.

Storing matters here because it sends the manifest through its text: an entry that came
back with another namespace or another key could take a slot that is held. It does not come back
so (`Manifest.ofText?_stableText`), and a file that cannot be read as a manifest counts as a fresh
one.

## Main definitions

* `Reachable` — the manifests that can be reached

## Main results

* `Manifest.SlotUnique.readManifest` — storing and reading keeps slots unique
* `slots_stay_unique` — slots are unique after every run and in every manifest that can be reached
-/

namespace KeyLedger

/-! ### Storing and reading -/

section Reading

variable {p : Path} {d : Disk}

theorem readManifest_of_ok {text : String} (h : d.readText p = .ok text) :
    readManifest (m := DiskM) p d = ((Manifest.ofText? text).getD .fresh, d) := by
  have hread : (readText p : DiskM (Except IoError String)) d = (.ok text, d) := by
    rw [← h]
    rfl
  simp only [readManifest, bind, StateT.bind, hread]
  rfl

theorem readManifest_of_error {e : IoError} (h : d.readText p = .error e) :
    readManifest (m := DiskM) p d = (.fresh, d) := by
  have hread : (readText p : DiskM (Except IoError String)) d = (.error e, d) := by
    rw [← h]
    rfl
  simp only [readManifest, bind, StateT.bind, hread]
  rfl

end Reading

theorem Entry.slot?_restamped {e e' : Entry} (h : e.restamped? = some e') : e'.slot? = e.slot? := by
  obtain ⟨t, -, rfl⟩ := Option.map_eq_some_iff.mp h
  rfl

theorem filterMap_slot?_mapM {es es' : List Entry} (h : es.mapM Entry.restamped? = some es') :
    es'.filterMap Entry.slot? = es.filterMap Entry.slot? := by
  induction es generalizing es' with
  | nil =>
    cases h
    rfl
  | cons e es ih =>
    rw [List.mapM_cons] at h
    obtain ⟨e₁, he, h⟩ := Option.bind_eq_some_iff.mp h
    obtain ⟨es₁, hes, h⟩ := Option.bind_eq_some_iff.mp h
    cases h
    rw [List.filterMap_cons, List.filterMap_cons, Entry.slot?_restamped he, ih hes]

namespace Manifest.SlotUnique

variable {m n : Manifest}

theorem sorted (h : m.SlotUnique) : m.sorted.SlotUnique :=
  h.of_perm (List.mergeSort_perm m.entries _).symm

/-- What the text of a manifest holds has the slots of the manifest. -/
theorem ofText? (h : m.SlotUnique) (hn : Manifest.ofText? m.stableText = some n) :
    n.SlotUnique := by
  rw [Manifest.ofText?_stableText] at hn
  obtain ⟨es, hes, rfl⟩ := Option.map_eq_some_iff.mp hn
  rw [SlotUnique, filterMap_slot?_mapM hes]
  exact h.sorted

/-- A manifest that was stored is read with unique slots. -/
theorem readManifest (h : m.SlotUnique) {p : Path} {d d' : Disk} {wrote : Bool}
    (hwrite : (writeManifest (m := DiskM) p m).run d = (.ok wrote, d')) :
    (KeyLedger.readManifest (m := DiskM) p d').1.SlotUnique := by
  have hread := readText_of_writeStable (DiskM.during_eq_ok_iff.mp hwrite)
  rw [readManifest_of_ok hread]
  cases hn : Manifest.ofText? m.stableText with
  | none => exact slotUnique_fresh
  | some n => exact h.ofText? hn

end Manifest.SlotUnique

/-! ### Everything that can be reached -/

/-- The manifests that can be reached by runs from a project without a manifest, where a manifest
may be stored and read again at any point. -/
inductive Reachable : Manifest → Prop
  /-- The project has no manifest yet. -/
  | fresh : Reachable .fresh
  /-- A run. -/
  | run {m : Manifest} (init : Reachable m) (cs : List Candidate) (now : Instant) :
      Reachable (nextManifest cs m now)
  /-- The manifest is stored in a file, and the file is read. -/
  | stored {m : Manifest} (init : Reachable m) (p : Path) {d d' : Disk} {wrote : Bool}
      (write : (writeManifest (m := DiskM) p m).run d = (.ok wrote, d')) :
      Reachable (readManifest (m := DiskM) p d').1

theorem Reachable.slotUnique {m : Manifest} (h : Reachable m) : m.SlotUnique := by
  induction h with
  | fresh => exact Manifest.slotUnique_fresh
  | run _ cs now ih => exact ih.nextManifest cs now
  | stored _ p write ih => exact ih.readManifest write

/-- **Slots stay unique**: a run keeps them unique, whatever the candidates, and so they are unique
in every manifest that can be reached. -/
theorem slots_stay_unique :
    (∀ m : Manifest, m.SlotUnique → ∀ (cs : List Candidate) (now : Instant),
      (nextManifest cs m now).SlotUnique) ∧
    ∀ m : Manifest, Reachable m → m.SlotUnique :=
  ⟨fun _ h cs now => h.nextManifest cs now, fun _ h => h.slotUnique⟩

/-- A manifest is stored in an empty directory and read again, and then a run moves its entry to
another namespace. -/
theorem slots_unique_after_storing :
    let m := nextManifest [.plain "a" (some "k") "X"] .fresh .epoch
    let cs : List Candidate := [.plain "b" none "X", .plain "b" (some "k") "Y"]
    let d := ((Disk.blank [] 0).put ["m.json"] (.file (.text m.stableText) 0)).log ["m.json"]
    let stored := (readManifest (m := DiskM) ⟨"m.json"⟩ d).1
    m.SlotUnique ∧ (nextManifest cs m .epoch).SlotUnique ∧
      Reachable (nextManifest cs stored .epoch) ∧ (nextManifest cs stored .epoch).SlotUnique := by
  intro m cs d stored
  have hm : m.SlotUnique := by decide +kernel
  have hwrite : (writeManifest (m := DiskM) ⟨"m.json"⟩ m).run (.blank [] 0) = (.ok true, d) := rfl
  have hreachable : Reachable (nextManifest cs stored .epoch) :=
    .run (.stored (.run .fresh _ _) _ hwrite) cs .epoch
  exact ⟨hm, slots_stay_unique.1 m hm cs .epoch, hreachable, slots_stay_unique.2 _ hreachable⟩

end KeyLedger
