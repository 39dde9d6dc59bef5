import KeyLedger.Proofs.Dict
import KeyLedger.Proofs.Files.Stable

/-!
# Directories and their items

A listing of a directory gives the names of what is in it, and a path to an item is made by joining
its name to the path of the directory. That the new path leads to the item again takes two things.
The name must be one: it is not empty, has no slash in it, and is neither a dot nor two. And the
item must be there: a disk keeps its nodes in a list, which could also mention a place twice, or one
on the way to the working directory, and then a listing would show what no path leads to.

A disk that does neither, and whose nodes have names, is *sound*. A disk with nothing on it is, and
every operation keeps it so, since a node is put only where a path leads and where no directory is.

## Main definitions

* `IsName` — the names that an item can have
* `Disk.Sound` — disks that hold every node once, under a name
* `Disk.filesIn` — the files that a listing shows

## Main results

* `Disk.locate_join` — where the path of an item leads
* `Disk.Sound.node?_eq_file_iff` — the files of a sound disk are those that it lists
* `Disk.Sound.writeFile`, `Disk.Sound.createDirs`, `Disk.Sound.rename`, `Disk.Sound.removeFile`,
  `Disk.Sound.removeTree` — operations keep a disk sound
* `Disk.Sound.mem_filesIn` — a listing shows the files that are in the directory
-/

namespace KeyLedger

/-- A name that an item of a directory can have. -/
structure IsName (name : String) : Prop where
  /-- It is not empty. -/
  ne_empty : name ≠ ""
  /-- It does not stand for its directory. -/
  ne_dot : name ≠ "."
  /-- Nor for the directory above. -/
  ne_dots : name ≠ ".."
  /-- It is a single segment. -/
  slashless : '/' ∉ name.toList

instance (name : String) : Decidable (IsName name) :=
  decidable_of_iff (name ≠ "" ∧ name ≠ "." ∧ name ≠ ".." ∧ '/' ∉ name.toList)
    ⟨fun ⟨h₁, h₂, h₃, h₄⟩ => ⟨h₁, h₂, h₃, h₄⟩, fun h => ⟨h.1, h.2, h.3, h.4⟩⟩

/-! ### The path of an item -/

namespace Path

variable {dir : Path} {name : String}

/-- What stands before a name that is joined to a path: the path, with a slash at its end. -/
def stem (dir : Path) : String :=
  if dir.text.isEmpty || dir.text.toList.getLast? == some '/' then dir.text else dir.text ++ "/"

theorem join_eq_stem (hname : IsName name) : dir.join name = ⟨dir.stem ++ name⟩ := by
  have hhead : (name.toList.head? == some '/') = false := by
    rw [beq_eq_false_iff_ne]
    exact fun h => hname.slashless (List.mem_of_head? h)
  rw [join, hhead, if_neg Bool.false_ne_true, stem]
  split <;> rfl

theorem exists_stem (hdir : dir.text ≠ "") : ∃ u, dir.stem.toList = u ++ ['/'] ∧
    (dir.text.toList = u ∨ dir.text.toList = u ++ ['/']) := by
  by_cases hslash : dir.text.toList.getLast? = some '/'
  · obtain ⟨u, hu⟩ := List.getLast?_eq_some_iff.mp hslash
    refine ⟨u, ?_, .inr hu⟩
    rw [stem, if_pos (by simp [hslash]), hu]
  · refine ⟨dir.text.toList, ?_, .inl rfl⟩
    rw [stem, if_neg (by simp [hslash, hdir]), String.toList_append]
    rfl

/-- A path is cut at its slashes, but for one at the root. -/
theorem segments_eq (p : Path) : p.segments = (Text.pieces '/'
    (if p.isAbsolute then p.text.toList.tail else p.text.toList)).map String.ofList := by
  rw [segments, Text.splitAt]
  split
  · rw [String.toList_ofList]
  · rfl

/-- **The segments of the path of an item** are those of its directory, apart from such that say
nothing, and its name. -/
theorem exists_segments_join (hdir : dir.text ≠ "") (hname : IsName name) :
    (dir.join name).isAbsolute = dir.isAbsolute ∧
      ∃ dirs, (dir.join name).segments = dirs ++ [name] ∧
        dirs.filter (· ≠ "") = dir.segments.filter (· ≠ "") := by
  obtain ⟨u, hstem, htext⟩ := exists_stem hdir
  have hjoin : (dir.join name).text.toList = u ++ '/' :: name.toList := by
    rw [join_eq_stem hname, String.toList_append, hstem, List.append_assoc]
    rfl
  have hpiece : Text.pieces '/' name.toList = [name.toList] :=
    Text.pieces_of_notMem hname.slashless
  cases u with
  | nil =>
    -- the directory is the root
    have hroot : dir.text.toList = ['/'] :=
      htext.resolve_left fun h => hdir (String.toList_eq_nil_iff.mp h)
    have habsolute : dir.isAbsolute = true := by simp [isAbsolute, hroot]
    have habsolute' : (dir.join name).isAbsolute = true := by simp [isAbsolute, hjoin]
    refine ⟨habsolute'.trans habsolute.symm, [], ?_, ?_⟩
    · simp [segments_eq, habsolute', hjoin, hpiece]
    · simp [segments_eq, habsolute, hroot, Text.pieces]
  | cons c u =>
    have habsolute : (dir.join name).isAbsolute = dir.isAbsolute := by
      rcases htext with htext | htext <;> simp [isAbsolute, hjoin, htext]
    -- the slash at the root is taken off the two paths alike
    obtain ⟨b, hb, hb'⟩ : ∃ b,
        (dir.join name).segments = (Text.pieces '/' (b ++ '/' :: name.toList)).map String.ofList ∧
        (dir.segments = (Text.pieces '/' b).map String.ofList ∨
          dir.segments = (Text.pieces '/' (b ++ ['/'])).map String.ofList) := by
      cases hroot : dir.isAbsolute with
      | true =>
        refine ⟨u, by simp [segments_eq, habsolute, hroot, hjoin], ?_⟩
        exact htext.imp (by simp [segments_eq, hroot, ·]) (by simp [segments_eq, hroot, ·])
      | false =>
        refine ⟨c :: u, by simp [segments_eq, habsolute, hroot, hjoin], ?_⟩
        exact htext.imp (by simp [segments_eq, hroot, ·]) (by simp [segments_eq, hroot, ·])
    refine ⟨habsolute, (Text.pieces '/' b).map String.ofList, ?_, ?_⟩
    · rw [hb, Text.pieces_append, hpiece, List.map_append, List.map_singleton,
        String.ofList_toList]
    · rcases hb' with hb' | hb'
      · rw [hb']
      · rw [hb', Text.pieces_append, List.map_append, List.filter_append]
        simp [Text.pieces]

end Path

namespace Disk

variable {d d' : Disk} {dir p : Path} {here q : Place} {name : String}

/-- The way to a directory goes through all of its segments. -/
theorem enterAll_of_dir {directory : Bool} (h : d.locate dir = .ok ⟨here, directory⟩)
    (hhere : d.node? here = some .dir) :
    dir.text ≠ "" ∧ (dir.segments.filter (· ≠ "")).foldlM d.enter (d.origin dir) = .ok here := by
  rw [locate] at h
  split at h
  · cases h
  · next htext =>
    refine ⟨htext, ?_⟩
    cases hlast : (dir.segments.filter (· ≠ "")).getLast? with
    | none =>
      rw [hlast] at h
      cases h
      rw [List.getLast?_eq_none_iff.mp hlast]
      rfl
    | some last =>
      rw [hlast] at h
      by_cases hdots : last = "." ∨ last = ".."
      · simp only [if_pos hdots] at h
        cases hfold : (dir.segments.filter (· ≠ "")).foldlM d.enter (d.origin dir) with
        | error e => rw [hfold] at h; cases h
        | ok there =>
          rw [hfold] at h
          cases h
          rfl
      · simp only [if_neg hdots] at h
        obtain ⟨init, hnames⟩ := List.getLast?_eq_some_iff.mp hlast
        rw [hnames, List.dropLast_concat] at h
        rw [hnames, List.foldlM_append]
        cases hfold : init.foldlM d.enter (d.origin dir) with
        | error e => rw [hfold] at h; cases h
        | ok there =>
          rw [hfold] at h
          cases h
          obtain ⟨hdot, hdots⟩ := not_or.mp hdots
          show [last].foldlM d.enter there = .ok (there ++ [last])
          rw [List.foldlM_cons, enter, if_neg hdot, if_neg hdots, hhere]
          rfl

/-- **Where the path of an item leads**: into the directory, under its name. -/
theorem locate_join (hdir : d.place? dir = some here) (hhere : d.node? here = some .dir)
    (hname : IsName name) : d.locate (dir.join name) = .ok ⟨here ++ [name], false⟩ := by
  obtain ⟨directory, hlocate⟩ := place?_eq_some_iff.mp hdir
  obtain ⟨htext, hfold⟩ := enterAll_of_dir hlocate hhere
  obtain ⟨habsolute, dirs, hsegments, hdirs⟩ := Path.exists_segments_join htext hname
  refine locate_of_segments hsegments hname.ne_empty hname.ne_dot hname.ne_dots ?_
  rw [hdirs, origin, habsolute]
  exact hfold

/-! ### Sound disks -/

/-- A disk holds every node once, under a name, and none on the way to the working directory. -/
structure Sound (d : Disk) : Prop where
  /-- No two nodes are at one place. -/
  distinct : (d.nodes.map Prod.fst).Nodup
  /-- The working directory and those above it are not among the nodes. -/
  away : ∀ n ∈ d.nodes, n.1.isPrefixOf d.home = false
  /-- Every node has a name. -/
  named : ∀ n ∈ d.nodes, ∃ here name, n.1 = here ++ [name] ∧ IsName name

instance (d : Disk) : Decidable d.Sound :=
  decidable_of_iff ((d.nodes.map Prod.fst).Nodup ∧ (∀ n ∈ d.nodes, n.1.isPrefixOf d.home = false) ∧
      ∀ n ∈ d.nodes, ∃ name ∈ n.1.getLast?, IsName name) <| by
    constructor
    · rintro ⟨hdistinct, haway, hnamed⟩
      refine ⟨hdistinct, haway, fun n hn => ?_⟩
      obtain ⟨name, hlast, hname⟩ := hnamed n hn
      obtain ⟨here, hplace⟩ := List.getLast?_eq_some_iff.mp hlast
      exact ⟨here, name, hplace, hname⟩
    · rintro ⟨hdistinct, haway, hnamed⟩
      refine ⟨hdistinct, haway, fun n hn => ?_⟩
      obtain ⟨here, name, hplace, hname⟩ := hnamed n hn
      exact ⟨name, by simp [hplace], hname⟩

theorem sound_blank (home : Place) (clock : Int) : (blank home clock).Sound :=
  ⟨List.nodup_nil, fun _ hn => absurd hn List.not_mem_nil, fun _ hn => absurd hn List.not_mem_nil⟩

/-- **The files of a sound disk** are those among its nodes. -/
theorem Sound.node?_eq_file_iff (h : d.Sound) {contents : Contents} {modified : Int} :
    d.node? q = some (.file contents modified) ↔ (q, .file contents modified) ∈ d.nodes := by
  rw [← lookup_eq_some_of_nodup h.distinct, node?]
  cases hq : q.isPrefixOf d.home with
  | false => rw [if_neg Bool.false_ne_true]
  | true =>
    refine iff_of_false (by simp) fun hlookup => ?_
    have haway := h.away _ ((lookup_eq_some_of_nodup h.distinct).mp hlookup)
    rw [hq] at haway
    cases haway

theorem Sound.sublist (h : d.Sound) (hhome : d'.home = d.home) (hnodes : d'.nodes.Sublist d.nodes) :
    d'.Sound :=
  ⟨h.distinct.sublist (hnodes.map Prod.fst), fun n hn => hhome ▸ h.away n (hnodes.subset hn),
    fun n hn => h.named n (hnodes.subset hn)⟩

theorem Sound.erase (h : d.Sound) (q : Place) : (d.erase q).Sound :=
  h.sublist rfl List.filter_sublist

theorem Sound.log (h : d.Sound) (q : Place) : (d.log q).Sound := ⟨h.distinct, h.away, h.named⟩

/-- A node may be put where no directory is. -/
theorem Sound.put (h : d.Sound) (hname : IsName name) (hdir : d.node? (here ++ [name]) ≠ some .dir)
    (n : Node) : (d.put (here ++ [name]) n).Sound := by
  have hold := h.erase (here ++ [name])
  have hcases : ∀ m ∈ (d.put (here ++ [name]) n).nodes,
      m ∈ (d.erase (here ++ [name])).nodes ∨ m = (here ++ [name], n) := by
    intro m hm
    exact (List.mem_append.mp hm).imp_right List.mem_singleton.mp
  refine ⟨?_, fun m hm => ?_, fun m hm => ?_⟩
  · rw [Disk.put, List.map_append]
    refine List.nodup_append.mpr ⟨hold.distinct, by simp, ?_⟩
    intro q hq r hr heq
    obtain ⟨m, hm, rfl⟩ := List.mem_map.mp hq
    have hne : m.1 ≠ here ++ [name] := by simpa using (List.mem_filter.mp hm).2
    exact hne (heq.trans (List.mem_singleton.mp hr))
  · rcases hcases m hm with hm | rfl
    · exact hold.away m hm
    · exact isPrefixOf_home_of_ne_dir (d := d) hdir
  · rcases hcases m hm with hm | rfl
    · exact hold.named m hm
    · exact ⟨here, name, rfl, hname⟩

/-- A path that leads to something else than a directory ends in a name. -/
theorem exists_isName_of_locate {directory : Bool} (h : d.locate p = .ok ⟨q, directory⟩)
    (hdir : d.node? q ≠ some .dir) : ∃ here name, q = here ++ [name] ∧ IsName name := by
  obtain ⟨here, last, hq, hlast, hdot, hdots, -⟩ := locate_eq_ok_of_not_dir h hdir
  obtain ⟨hsegment, hempty⟩ := List.mem_filter.mp (List.mem_of_getLast? hlast)
  exact ⟨here, last, hq, by simpa using hempty, hdot, hdots, Path.notMem_of_mem_segments hsegment⟩

/-! ### Operations keep a disk sound -/

/-- A write keeps a disk sound, also if it breaks off. -/
theorem Sound.writeFile (h : d.Sound) (p : Path) (contents : Contents) :
    (d.writeFile p contents).1.Sound := by
  have hfill : ∀ {q : Place} (part : Contents), d.locate p = .ok ⟨q, false⟩ →
      d.node? q ≠ some .dir → (d.fill q part).Sound := by
    intro q part hp hdir
    obtain ⟨here, name, rfl, hname⟩ := exists_isName_of_locate hp hdir
    exact (h.put hname hdir _).log _
  rcases d.writeFile_cases p contents with
    ⟨e, -, hwrite⟩ | ⟨q, hp, hdir, ⟨-, hwrite⟩ | ⟨n, -, hwrite⟩⟩
  · rw [hwrite]
    exact h
  · rw [hwrite]
    exact hfill contents hp hdir
  · rw [hwrite]
    exact hfill (contents.take n) hp hdir

theorem Sound.createFrom (h : d.Sound) {ss : List String} (hss : ∀ s ∈ ss, '/' ∉ s.toList)
    (made : Bool) (here : Place) : (d.createFrom made here ss).1.Sound := by
  induction ss generalizing d made here with
  | nil => exact h
  | cons s ss ih =>
    obtain ⟨hs, hrest⟩ := List.forall_mem_cons.mp hss
    rw [Disk.createFrom]
    by_cases hidle : s = "" ∨ s = "."
    · rw [if_pos hidle]
      exact ih h hrest made here
    · rw [if_neg hidle]
      obtain ⟨hempty, hdot⟩ := not_or.mp hidle
      by_cases hdots : s = ".."
      · rw [if_pos hdots]
        exact ih h hrest made here.dropLast
      · rw [if_neg hdots]
        cases hnode : d.node? (here ++ [s]) with
        | none =>
          have hdir : d.node? (here ++ [s]) ≠ some .dir := by simp [hnode]
          exact ih (h.put ⟨hempty, hdot, hdots, hs⟩ hdir .dir) hrest true (here ++ [s])
        | some n =>
          cases n with
          | dir => exact ih h hrest made (here ++ [s])
          | file contents modified => exact h

theorem Sound.createDirs (h : d.Sound) (p : Path) : (d.createDirs p).1.Sound :=
  h.createFrom (fun _ hs => Path.notMem_of_mem_segments hs) false _

theorem Sound.removeFile (h : d.Sound) (hremove : d.removeFile p = .ok d') : d'.Sound := by
  rw [Disk.removeFile] at hremove
  cases hp : d.locate p with
  | error e => rw [hp] at hremove; cases hremove
  | ok t =>
    simp only [hp, bind, Except.bind] at hremove
    split at hremove
    · cases hremove
    · cases hremove
    · split at hremove
      · cases hremove
      · cases hremove
        exact h.erase _

theorem Sound.removeTree (h : d.Sound) (hremove : d.removeTree p = .ok d') : d'.Sound := by
  rw [Disk.removeTree] at hremove
  cases hp : d.locate p with
  | error e => rw [hp] at hremove; cases hremove
  | ok t =>
    simp only [hp, bind, Except.bind] at hremove
    split at hremove
    · cases hremove
    · cases hremove
    · cases hremove
      exact h.sublist rfl List.filter_sublist

theorem Sound.rename (h : d.Sound) {new : Path} (hrename : d.rename p new = .ok d') : d'.Sound := by
  rw [Disk.rename] at hrename
  cases hp : d.locate p with
  | error e => rw [hp] at hrename; cases hrename
  | ok t =>
    cases hnew : d.locate new with
    | error e => simp [hp, hnew, bind, Except.bind] at hrename
    | ok t' =>
      obtain ⟨q, directory⟩ := t'
      simp only [hp, hnew, bind, Except.bind] at hrename
      split at hrename
      · cases hrename
      · split at hrename
        · next contents modified hfile =>
          split at hrename
          · cases hrename
          · split at hrename
            · cases hrename
            · next hdir =>
              obtain ⟨here, name, rfl, hname⟩ := exists_isName_of_locate hnew hdir
              have hdir' : (d.erase t.place).node? (here ++ [name]) ≠ some .dir := by
                by_cases heq : here ++ [name] = t.place
                · simp [heq, node?_erase_self, hfile]
                · rwa [node?_erase_of_ne heq]
              have hput := (h.erase t.place).put hname hdir' (.file contents modified)
              cases hrename
              split
              · exact hput.log _
              · exact hput
        · cases hrename
        · cases hrename

/-! ### Listings -/

/-- The regular files that a listing of a directory shows. -/
def filesIn (d : Disk) (here : Place) : List DirItem :=
  (d.nodes.filterMap (item? here)).filter DirItem.isFile

/-- What an item tells of its node. -/
theorem of_item?_eq_some {n : Place × Node} {i : DirItem} (h : item? here n = some i) :
    n.1 = here ++ [i.name] ∧ (i.isFile = true → ∃ contents, n.2 = .file contents i.modified) := by
  rw [item?] at h
  cases hlast : n.1.getLast? with
  | none => simp [hlast] at h
  | some last =>
    simp only [hlast] at h
    split at h
    · next hplace =>
      cases hnode : n.2 with
      | file contents modified =>
        simp only [hnode, Option.some.injEq] at h
        subst h
        exact ⟨hplace, fun _ => ⟨contents, rfl⟩⟩
      | dir =>
        simp only [hnode, Option.some.injEq] at h
        subst h
        exact ⟨hplace, fun hfile => absurd hfile Bool.false_ne_true⟩
    · cases h

theorem item?_file (here : Place) (name : String) (contents : Contents) (modified : Int) :
    item? here (here ++ [name], .file contents modified) = some ⟨name, true, modified⟩ := by
  simp [item?]

/-- **The files that a listing shows** are those that are in the directory. -/
theorem Sound.mem_filesIn (h : d.Sound) {i : DirItem} :
    i ∈ d.filesIn here ↔ i.isFile = true ∧
      ∃ contents, d.node? (here ++ [i.name]) = some (.file contents i.modified) := by
  simp only [filesIn, List.mem_filter, List.mem_filterMap, h.node?_eq_file_iff]
  constructor
  · rintro ⟨⟨⟨place, node⟩, hn, hitem⟩, hfile⟩
    obtain ⟨rfl, hnode⟩ := of_item?_eq_some hitem
    obtain ⟨contents, rfl⟩ := hnode hfile
    exact ⟨hfile, contents, hn⟩
  · rintro ⟨hfile, contents, hn⟩
    obtain ⟨name, isFile, modified⟩ := i
    obtain rfl : isFile = true := hfile
    exact ⟨⟨_, hn, item?_file here name contents modified⟩, rfl⟩

theorem Sound.isName_of_file (h : d.Sound) {contents : Contents} {modified : Int}
    (hfile : d.node? (here ++ [name]) = some (.file contents modified)) : IsName name := by
  obtain ⟨there, last, hplace, hname⟩ := h.named _ (h.node?_eq_file_iff.mp hfile)
  obtain ⟨-, hlast⟩ := List.append_inj' hplace rfl
  exact List.singleton_inj.mp hlast ▸ hname

/-- No name is listed twice. -/
theorem Sound.nodup_names (h : d.Sound) (here : Place) :
    ((d.filesIn here).map DirItem.name).Nodup := by
  have hplaces : d.nodes.Pairwise fun n m => n.1 ≠ m.1 := List.pairwise_map.mp h.distinct
  refine List.pairwise_map.mpr (List.Pairwise.filter _ (List.pairwise_filterMap.mpr ?_))
  refine hplaces.imp fun {n m} hne i hi j hj hname => hne ?_
  rw [(of_item?_eq_some hi).1, (of_item?_eq_some hj).1, hname]

theorem listDir_eq_ok (hdir : d.place? dir = some here) (hhere : d.node? here = some .dir) :
    ∃ items, d.listDir dir = .ok items ∧ items.filter DirItem.isFile = d.filesIn here := by
  obtain ⟨directory, hlocate⟩ := place?_eq_some_iff.mp hdir
  refine ⟨(d.wayHome? here).toList ++ d.nodes.filterMap (item? here), ?_, ?_⟩
  · simp [listDir, hlocate, hhere, bind, Except.bind]
  · rw [List.filter_append, filesIn, List.append_left_eq_self, List.filter_eq_nil_iff]
    intro i hi
    obtain ⟨name, -, rfl⟩ : ∃ name, _ ∧ (⟨name, false, 0⟩ : DirItem) = i := by
      rw [Option.mem_toList, wayHome?] at hi
      split at hi
      · exact Option.map_eq_some_iff.mp hi
      · cases hi
    exact Bool.false_ne_true

end Disk

end KeyLedger
