import KeyLedger.Files.Write
import KeyLedger.Proofs.Files.Disk
import KeyLedger.Proofs.Text.Lines
import Mathlib.Data.List.Induction

/-!
# Where the sibling of a file is

An atomic write goes through the path that `temporary` makes: the path is taken apart, its name is
replaced, and it is put together again. The new path leads to the same directory as the old one,
although segments that say nothing are lost on the way, and names a file that stands beside the old
one there.

## Main results

* `Path.segments_ofSegments` — a path that is put together has the segments that it is made from
* `Path.exists_segments_withFileName`, `Path.exists_segments_parent` — the segments of a sibling and
  of the directory
* `Disk.locate_temporary` — where the sibling of a file is
-/

namespace KeyLedger

/-! ### Segments -/

namespace Path

theorem notMem_of_mem_segments {p : Path} {s : String} (h : s ∈ p.segments) : '/' ∉ s.toList := by
  obtain ⟨cs, hcs, rfl⟩ := List.mem_map.mp h
  rw [String.toList_ofList]
  exact Text.notMem_of_mem_pieces hcs

/-- A text starts with a slash if and only if it has an empty first segment and more. -/
theorem head?_eq_slash_iff {text : String} : text.toList.head? = some '/' ↔
    ∃ s ss, Text.splitAt '/' text = "" :: s :: ss := by
  rw [Text.splitAt]
  cases text.toList with
  | nil => simp [Text.pieces]
  | cons c cs =>
    have hne : Text.pieces '/' cs ≠ [] := Text.pieces_eq_splitOn '/' cs ▸ List.splitOnP_ne_nil _ _
    obtain ⟨p, ps, hpieces⟩ := List.exists_cons_of_ne_nil hne
    rw [Text.pieces, hpieces, List.head?_cons]
    by_cases hc : c = '/' <;> simp [hc]

/-- A path that is put together has the segments that it is made from. -/
theorem segments_ofSegments {absolute : Bool} {ss : List String} (hne : ss ≠ [])
    (hslash : ∀ s ∈ ss, '/' ∉ s.toList) (hhead : absolute = false → ss.head? ≠ some "") :
    (ofSegments absolute ss).isAbsolute = absolute ∧ (ofSegments absolute ss).segments = ss := by
  have hsplit : Text.splitAt '/' (String.intercalate "/" ss) = ss :=
    Text.splitAt_eq_iff.mpr ⟨hne, hslash, rfl⟩
  cases absolute with
  | true =>
    have htext : (ofSegments true ss).text.toList = '/' :: (String.intercalate "/" ss).toList := by
      simp [ofSegments]
    have habsolute : (ofSegments true ss).isAbsolute = true := by simp [isAbsolute, htext]
    refine ⟨habsolute, ?_⟩
    rw [segments, habsolute, if_pos rfl, htext, List.tail_cons, String.ofList_toList, hsplit]
  | false =>
    have htext : (ofSegments false ss).text = String.intercalate "/" ss := by
      simp [ofSegments]
    have habsolute : (ofSegments false ss).isAbsolute = false := by
      rw [isAbsolute, htext, beq_eq_false_iff_ne]
      intro hslash
      obtain ⟨s, rest, hsegments⟩ := head?_eq_slash_iff.mp hslash
      rw [hsplit] at hsegments
      exact hhead rfl (by rw [hsegments]; rfl)
    refine ⟨habsolute, ?_⟩
    rw [segments, habsolute, if_neg Bool.false_ne_true, htext, hsplit]

theorem ofSegments_join {absolute : Bool} {ss : List String} {name : String}
    (hslash : ∀ s ∈ ss, '/' ∉ s.toList) (hlast : ss.getLast? ≠ some "")
    (hname : '/' ∉ name.toList) :
    (ofSegments absolute ss).join name = ofSegments absolute (ss ++ [name]) := by
  have hhead : (name.toList.head? == some '/') = false := by
    rw [beq_eq_false_iff_ne]
    intro h
    exact hname (List.mem_of_head? h)
  rw [join, hhead, if_neg Bool.false_ne_true]
  rcases List.eq_nil_or_concat ss with rfl | ⟨init, l, hss⟩
  · cases absolute <;> simp [ofSegments]
  · rw [List.concat_eq_append] at hss
    have hl : l ≠ "" := by
      rintro rfl
      simp [hss] at hlast
    -- the path ends in its last segment, which neither is empty nor ends in a slash
    have hend : ∃ start : String, (ofSegments absolute ss).text = start ++ l := by
      by_cases hinit : init = []
      · exact ⟨_, by rw [ofSegments, hss, hinit, List.nil_append, String.intercalate_singleton]⟩
      · refine ⟨(if absolute then "/" else "") ++ String.intercalate "/" init ++ "/", ?_⟩
        rw [ofSegments, hss, String.intercalate_append_of_ne_nil hinit (by simp),
          String.intercalate_singleton, ← String.append_assoc, ← String.append_assoc]
    have hguard : ((ofSegments absolute ss).text.isEmpty ||
        (ofSegments absolute ss).text.toList.getLast? == some '/') = false := by
      obtain ⟨start, htext⟩ := hend
      obtain ⟨c, hc⟩ : ∃ c, l.toList.getLast? = some c :=
        Option.ne_none_iff_exists'.mp (by simpa using hl)
      have hslashless : c ≠ '/' := by
        rintro rfl
        exact hslash l (by simp [hss]) (List.mem_of_getLast? hc)
      rw [htext, String.toList_append, List.getLast?_append, hc]
      simpa [hl] using hslashless
    rw [hguard, if_neg Bool.false_ne_true, ofSegments, ofSegments,
      String.intercalate_append_of_ne_nil (by simp [hss]) (by simp), String.intercalate_singleton,
      ← String.append_assoc, ← String.append_assoc]

/-! ### Taking a path apart -/

theorem settled_append_idle {absolute : Bool} {ss : List String} {s : String}
    (h : isIdle absolute s ss.length = true) :
    settled absolute (ss ++ [s]) = settled absolute ss := by
  simp [settled, List.zipIdx_append, h]

theorem settled_append_of_not_idle {absolute : Bool} {ss : List String} {s : String}
    (h : isIdle absolute s ss.length = false) : settled absolute (ss ++ [s]) = ss ++ [s] := by
  simp [settled, List.zipIdx_append, h]

/-- Segments that say nothing are lost at the end, and nothing else. -/
theorem exists_eq_settled_append (absolute : Bool) (ss : List String) :
    ∃ rest, ss = settled absolute ss ++ rest ∧ (∀ s ∈ rest, s = "" ∨ s = ".") ∧
      (settled absolute ss).getLast? ≠ some "" := by
  induction ss using List.reverseRecOn with
  | nil => exact ⟨[], rfl, by simp, by simp [settled]⟩
  | append_singleton ss s ih =>
    cases hidle : isIdle absolute s ss.length with
    | true =>
      obtain ⟨rest, hrest, hall, hlast⟩ := ih
      rw [settled_append_idle hidle]
      refine ⟨rest ++ [s], ?_, ?_, hlast⟩
      · rw [← List.append_assoc, ← hrest]
      · intro t ht
        rcases List.mem_append.mp ht with ht | ht
        · exact hall t ht
        · obtain rfl := List.mem_singleton.mp ht
          simp only [isIdle, Bool.or_eq_true, beq_iff_eq, Bool.and_eq_true] at hidle
          exact hidle.imp_right And.left
    | false =>
      rw [settled_append_of_not_idle hidle]
      refine ⟨[], by simp, by simp, ?_⟩
      simp only [isIdle, Bool.or_eq_false_iff, beq_eq_false_iff_ne] at hidle
      simpa using hidle.1

/-- Segments that end in a name, apart from empty ones. -/
theorem exists_settled_eq (absolute : Bool) {ss : List String} {last : String}
    (h : (ss.filter (· ≠ "")).getLast? = some last) (hdot : last ≠ ".") :
    ∃ init rest, ss = init ++ last :: rest ∧ settled absolute ss = init ++ [last] ∧
      ss.filter (· ≠ "") = init.filter (· ≠ "") ++ [last] := by
  induction ss using List.reverseRecOn with
  | nil => simp at h
  | append_singleton ss s ih =>
    by_cases hs : s = ""
    · have hfilter : (ss ++ [s]).filter (· ≠ "") = ss.filter (· ≠ "") := by simp [hs]
      rw [hfilter] at h ⊢
      obtain ⟨init, rest, hsplit, hsettled, hnames⟩ := ih h
      refine ⟨init, rest ++ [s], by simp [hsplit], ?_, hnames⟩
      rw [settled_append_idle (by simp [isIdle, hs]), hsettled]
    · have hfilter : (ss ++ [s]).filter (· ≠ "") = ss.filter (· ≠ "") ++ [s] := by simp [hs]
      rw [hfilter, List.getLast?_concat] at h
      obtain rfl := Option.some.inj h
      exact ⟨ss, [], rfl, settled_append_of_not_idle (by simp [isIdle, hs, hdot]), hfilter⟩

/-- The segments before the last name of a relative path do not begin with an empty one: that would
mean that the path starts at the root. -/
theorem head?_settled_ne {p : Path} {init tail : List String} {last : String}
    (hsplit : p.segments = init ++ last :: tail) (habsolute : p.isAbsolute = false) :
    (settled p.isAbsolute init).head? ≠ some "" := by
  intro hhead
  obtain ⟨rest, hrest, -, -⟩ := exists_eq_settled_append p.isAbsolute init
  cases hdirs : settled p.isAbsolute init with
  | nil => simp [hdirs] at hhead
  | cons s dirs =>
    obtain rfl : s = "" := by simpa [hdirs] using hhead
    have hsegments : Text.splitAt '/' p.text = "" :: (dirs ++ rest ++ last :: tail) := by
      rw [segments, habsolute, if_neg Bool.false_ne_true] at hsplit
      rw [hsplit, hrest, hdirs]
      simp
    obtain ⟨t, ts, htail⟩ := List.exists_cons_of_ne_nil
      (show dirs ++ rest ++ last :: tail ≠ [] by simp)
    rw [htail] at hsegments
    simp [isAbsolute, head?_eq_slash_iff.mpr ⟨t, ts, hsegments⟩] at habsolute

theorem notMem_of_mem_settled {p : Path} {init tail : List String} {last s : String}
    (hsplit : p.segments = init ++ last :: tail) (hs : s ∈ settled p.isAbsolute init) :
    '/' ∉ s.toList := by
  obtain ⟨rest, hrest, -, -⟩ := exists_eq_settled_append p.isAbsolute init
  refine notMem_of_mem_segments (p := p) ?_
  rw [hsplit, hrest]
  simp [hs]

/-- A sibling has the segments before the name of a path, apart from such that say nothing, and its
own name. -/
theorem exists_segments_withFileName {p : Path} {last : String}
    (h : (p.segments.filter (· ≠ "")).getLast? = some last) (hdot : last ≠ ".")
    (hdots : last ≠ "..") :
    p.fileName? = some last ∧
      ∃ dirs rest, (p.segments.filter (· ≠ "")).dropLast = (dirs ++ rest).filter (· ≠ "") ∧
        (∀ s ∈ rest, s = "" ∨ s = ".") ∧
        ∀ name : String, '/' ∉ name.toList → name ≠ "" →
          (p.withFileName name).isAbsolute = p.isAbsolute ∧
            (p.withFileName name).segments = dirs ++ [name] := by
  obtain ⟨init, tail, hsplit, hsettled, hnames⟩ := exists_settled_eq p.isAbsolute h hdot
  obtain ⟨rest, hrest, hall, hlast⟩ := exists_eq_settled_append p.isAbsolute init
  have hfileName : p.fileName? = some last := by simp [fileName?, hsettled, hdot, hdots]
  have hparent : p.parent? = some (ofSegments p.isAbsolute (settled p.isAbsolute init)) := by
    simp [parent?, hsettled]
  refine ⟨hfileName, settled p.isAbsolute init, rest, ?_, hall, fun name hslash hne => ?_⟩
  · rw [hnames, List.dropLast_concat, ← hrest]
  have hslashes : ∀ s ∈ settled p.isAbsolute init, '/' ∉ s.toList :=
    fun s hs => notMem_of_mem_settled hsplit hs
  rw [withFileName, hfileName, hparent]
  simp only [ofSegments_join hslashes hlast hslash]
  refine segments_ofSegments (by simp) ?_ ?_
  · intro s hs
    rcases List.mem_append.mp hs with hs | hs
    · exact hslashes s hs
    · exact List.mem_singleton.mp hs ▸ hslash
  · intro habsolute hhead
    have hfirst := head?_settled_ne hsplit habsolute
    cases hdirs : settled p.isAbsolute init with
    | nil => simp [hdirs, hne] at hhead
    | cons s dirs =>
      rw [hdirs] at hhead hfirst
      exact hfirst hhead

/-- The directory of a path that ends in a name has the segments before the name, apart from such
that say nothing. -/
theorem exists_segments_parent {p : Path} {last : String}
    (h : (p.segments.filter (· ≠ "")).getLast? = some last) (hdot : last ≠ ".") :
    ∃ (parent : Path) (dirs rest : List String), p.parent? = some parent ∧
      (p.segments.filter (· ≠ "")).dropLast = (dirs ++ rest).filter (· ≠ "") ∧
      (parent.text ≠ "" → parent.isAbsolute = p.isAbsolute ∧
        parent.segments.filter (· ≠ "") = dirs.filter (· ≠ "")) := by
  obtain ⟨init, tail, hsplit, hsettled, hnames⟩ := exists_settled_eq p.isAbsolute h hdot
  obtain ⟨rest, hrest, -, -⟩ := exists_eq_settled_append p.isAbsolute init
  refine ⟨ofSegments p.isAbsolute (settled p.isAbsolute init), settled p.isAbsolute init, rest,
    by simp [parent?, hsettled], by rw [hnames, List.dropLast_concat, ← hrest], fun htext => ?_⟩
  by_cases hdirs : settled p.isAbsolute init = []
  · rw [hdirs] at htext ⊢
    cases habsolute : p.isAbsolute with
    | false =>
      rw [habsolute] at htext
      exact absurd (by decide) htext
    | true => exact ⟨by decide, by decide⟩
  · obtain ⟨habsolute, hsegments⟩ := segments_ofSegments hdirs
      (fun s hs => notMem_of_mem_settled hsplit hs) (head?_settled_ne hsplit)
    exact ⟨habsolute, by rw [hsegments]⟩

end Path

/-- The name of a sibling is a name. -/
theorem temporaryName_ne (last : String) {s : String} (hs : s.toList.length < 9) :
    last ++ ".voko-tmp" ≠ s := by
  rintro rfl
  rw [String.toList_append, List.length_append] at hs
  exact absurd hs (Nat.not_lt.mpr (Nat.le_add_left 9 _))

/-! ### Where the sibling is -/

namespace Disk

variable {d : Disk} {here there : Place}

/-- A place with directories all the way to it, itself included. -/
def Paved (d : Disk) (here : Place) : Prop := ∀ q, q <+: here → d.node? q = some .dir

theorem paved_origin (d : Disk) (p : Path) : d.Paved (d.origin p) := by
  intro q hq
  have hhome : q <+: d.home := by
    rw [origin] at hq
    split at hq
    · exact (List.prefix_nil.mp hq) ▸ List.nil_prefix
    · exact hq
  rw [node?, if_pos (List.isPrefixOf_iff_prefix.mpr hhome)]

theorem Paved.enter (h : d.Paved here) {s : String} (hs : d.enter here s = .ok there) :
    d.Paved there := by
  rw [Disk.enter] at hs
  split at hs
  · cases hs
    exact h
  · split at hs
    · cases hs
      exact fun q hq => h q (hq.trans (List.dropLast_prefix here))
    · split at hs
      · next hnode =>
        cases hs
        intro q hq
        rcases List.prefix_concat_iff.mp hq with rfl | hq
        · exact hnode
        · exact h q hq
      · cases hs
      · cases hs

theorem Paved.enterAll (h : d.Paved here) {ss : List String}
    (hss : ss.foldlM d.enter here = .ok there) : d.Paved there := by
  induction ss generalizing here with
  | nil =>
    cases hss
    exact h
  | cons s ss ih =>
    rw [List.foldlM_cons] at hss
    cases hs : d.enter here s with
    | error e => rw [hs] at hss; cases hss
    | ok next =>
      rw [hs] at hss
      exact ih (h.enter hs) hss

theorem enterAll_dots {ss : List String} (h : ∀ s ∈ ss, s = ".") (here : Place) :
    ss.foldlM d.enter here = .ok here := by
  induction ss with
  | nil => rfl
  | cons s ss ih =>
    obtain rfl := h s List.mem_cons_self
    rw [List.foldlM_cons]
    exact ih fun t ht => h t (List.mem_cons_of_mem _ ht)

/-- A path that leads to something else than a directory ends in its name. -/
theorem locate_eq_ok_of_not_dir {p : Path} {q : Place} {directory : Bool}
    (h : d.locate p = .ok ⟨q, directory⟩) (hdir : d.node? q ≠ some .dir) :
    ∃ here last, q = here ++ [last] ∧ (p.segments.filter (· ≠ "")).getLast? = some last ∧
      last ≠ "." ∧ last ≠ ".." ∧
      (p.segments.filter (· ≠ "")).dropLast.foldlM d.enter (d.origin p) = .ok here := by
  have hpaved := d.paved_origin p
  rw [locate] at h
  split at h
  · cases h
  · cases hlast : (p.segments.filter (· ≠ "")).getLast? with
    | none =>
      simp only [hlast] at h
      cases h
      exact absurd (hpaved _ List.prefix_rfl) hdir
    | some last =>
      simp only [hlast] at h
      split at h
      · cases hfold : (p.segments.filter (· ≠ "")).foldlM d.enter (d.origin p) with
        | error e => rw [hfold] at h; cases h
        | ok there =>
          rw [hfold] at h
          cases h
          exact absurd (hpaved.enterAll hfold _ List.prefix_rfl) hdir
      · next hdots =>
        cases hfold : (p.segments.filter (· ≠ "")).dropLast.foldlM d.enter (d.origin p) with
        | error e => rw [hfold] at h; cases h
        | ok there =>
          rw [hfold] at h
          cases h
          exact ⟨there, last, rfl, rfl, fun h => hdots (.inl h), fun h => hdots (.inr h), rfl⟩

/-- Where a path leads that ends in a name. -/
theorem locate_of_segments {p : Path} {dirs : List String} {name : String}
    (h : p.segments = dirs ++ [name]) (hempty : name ≠ "") (hdot : name ≠ ".") (hdots : name ≠ "..")
    (hdirs : (dirs.filter (· ≠ "")).foldlM d.enter (d.origin p) = .ok here) :
    d.locate p = .ok ⟨here ++ [name], false⟩ := by
  have htext : p.text ≠ "" := by
    intro htext
    have hsegments : p.segments = [""] := by
      simp [Path.segments, Path.isAbsolute, htext, Text.splitAt, Text.pieces]
    have hlast := congrArg List.getLast? (h.symm.trans hsegments)
    simp [hempty] at hlast
  have hfilter : p.segments.filter (· ≠ "") = dirs.filter (· ≠ "") ++ [name] := by
    simp [h, hempty]
  rw [locate, if_neg htext, hfilter]
  simp only [List.getLast?_concat, List.dropLast_concat, hdirs, h]
  rw [if_neg (by simp [hdot, hdots])]
  simp [pure, Except.pure, bind, Except.bind]

/-- **Where the sibling of a file is**: beside it, under the name of the file with an ending. -/
theorem locate_temporary {p : Path} {q : Place} {directory : Bool}
    (h : d.locate p = .ok ⟨q, directory⟩) (hdir : d.node? q ≠ some .dir) :
    ∃ here last, q = here ++ [last] ∧
      d.locate (temporary p) = .ok ⟨here ++ [last ++ ".voko-tmp"], false⟩ := by
  obtain ⟨here, last, hq, hlast, hdot, hdots, hfold⟩ := locate_eq_ok_of_not_dir h hdir
  obtain ⟨hfileName, dirs, rest, hnames, hrest, hsibling⟩ :=
    Path.exists_segments_withFileName hlast hdot hdots
  have hslash : '/' ∉ (last ++ ".voko-tmp").toList := by
    have hmem : last ∈ p.segments := (List.mem_filter.mp (List.mem_of_getLast? hlast)).1
    rw [String.toList_append, List.mem_append, not_or]
    exact ⟨Path.notMem_of_mem_segments hmem, by decide⟩
  have hempty : last ++ ".voko-tmp" ≠ "" := temporaryName_ne last (by decide)
  obtain ⟨habsolute, hsegments⟩ := hsibling _ hslash hempty
  have htemporary : temporary p = p.withFileName (last ++ ".voko-tmp") := by
    rw [temporary, hfileName, Option.getD_some]
  have horigin : d.origin (p.withFileName (last ++ ".voko-tmp")) = d.origin p := by
    rw [origin, origin, habsolute]
  have hdirs : (dirs.filter (· ≠ "")).foldlM d.enter (d.origin p) = .ok here := by
    have hdotsOnly : ∀ s ∈ rest.filter (· ≠ ""), s = "." := by
      intro s hs
      obtain ⟨hs, hne⟩ := List.mem_filter.mp hs
      exact (hrest s hs).resolve_left (by simpa using hne)
    rw [hnames, List.filter_append, List.foldlM_append] at hfold
    cases hdirs : (dirs.filter (· ≠ "")).foldlM d.enter (d.origin p) with
    | error e => rw [hdirs] at hfold; cases hfold
    | ok there =>
      rw [hdirs] at hfold
      exact (enterAll_dots hdotsOnly there).symm.trans hfold
  refine ⟨here, last, hq, ?_⟩
  rw [htemporary]
  refine locate_of_segments hsegments ?_ ?_ ?_ (by rw [horigin, hdirs])
  all_goals exact temporaryName_ne last (by decide)

end Disk

end KeyLedger
