import Yacet.BoRange
import Yacet.InsertOutcome
import Yacet.PrintRange

/-!
# From marks in files to the printed range (`nosql/bo.c`, `main.c`, `sql.c`, `range.c`)

`bo` takes the marks out of the files, `yacet -g` makes a range of a line that it leaves and stores
it, and a thread of `yacet -p -r` fetches the range and prints it.

* `exists_stored` — what `query_insert_named_range` reads of the range in memory.
* `mem_nodesOf_fetched` — what is fetched of a range that has been stored.
* `merged_of_mergeOf` — a list that merges the same intervals covers the same positions.
* `PrintsMarks` — files and intervals as the marks give them.
* `marks_print` — **what is printed is what was marked**, whatever else the tables hold.
-/

namespace Yacet

namespace Bo

open CText CString Marks NewRange
open Printing (Lists Provides RangeFiles thdPrange thdPrange_eq rangeFiles_of_exact)

variable {w : ℕ} {files : List Source} {line : Text} {db db' : Db} {name : Text}
  {stored : List NamedFile} {groups : List Yacet.Group} {rows : List FetchRow}

/-! ## From memory into the tables -/

/-- The files of a range and their lists, as they are stored. -/
theorem exists_stored {r : Mem.Range} {es : List Mem.Entry} (h : Mem.Shows r es) :
    ∃ stored : List NamedFile, Lists r (stored.map fun f => (f.filePath, f.it)) ∧
      List.Forall₂ (fun e f => f.filePath = e.path ∧ Merged e.ivs f.it) es stored := by
  have hfile : ∀ t, ∃ f : NamedFile, ∀ e, es[t]? = some e → f.filePath = e.path ∧
    Merged e.ivs f.it ∧
      ∃ s, r.file t = some s ∧ s.filePath = f.filePath ∧ Mem.ListIs r.heap s.it f.it := by
    intro t
    cases he : es[t]? with
    | none => exact ⟨⟨[], []⟩, fun e he' => by cases he'⟩
    | some e =>
        obtain ⟨s, l, hs, hpath, -, hlist, hmerged, -⟩ := h.2 t e he
        refine ⟨⟨e.path, l⟩, fun e' he' => ?_⟩
        cases he'
        exact ⟨rfl, hmerged, s, hs, hpath, hlist⟩
  choose g hg using hfile
  have hget : ∀ t (ht : t < es.length), es[t]? = some es[t] :=
    fun t ht => List.getElem?_eq_getElem ht
  refine ⟨(List.range es.length).map g, ⟨?_, fun t f hf => ?_⟩, ?_⟩
  · rw [h.1, List.length_map, List.length_map, List.length_range]
  · rw [List.map_map, List.getElem?_map] at hf
    obtain ⟨k, hk, rfl⟩ := Option.map_eq_some_iff.1 hf
    obtain ⟨hlt, rfl⟩ := List.getElem?_eq_some_iff.1 hk
    rw [List.length_range] at hlt
    rw [List.getElem_range]
    exact (hg t _ (hget t hlt)).2.2
  · rw [List.forall₂_iff_get]
    refine ⟨by simp, fun t ht ht' => ?_⟩
    obtain ⟨hpath, hmerged, -⟩ := hg t _ (hget t ht)
    simpa using ⟨hpath, hmerged⟩

/-! ## Out of the tables -/

/-- The database can put any rows in order. -/
theorem exists_fetched (db : Db) (name : Text) : ∃ rows, Fetched db name rows := by
  have htotal : ∀ a b : FetchRow, a.InOrder b ∨ b.InOrder a := by
    intro a b
    unfold FetchRow.InOrder
    rcases lt_trichotomy a.filePath b.filePath with hlt | heq | hgt
    · exact Or.inl (Or.inl hlt)
    · rcases le_total a.base b.base with hle | hle
      · exact Or.inl (Or.inr ⟨heq, hle⟩)
      · exact Or.inr (Or.inr ⟨heq.symm, hle⟩)
    · exact Or.inr (Or.inl hgt)
  have htrans : ∀ a b c : FetchRow, a.InOrder b → b.InOrder c → a.InOrder c := by
    rintro a b c (hab | ⟨hab, hle⟩) (hbc | ⟨hbc, hle'⟩)
    · exact Or.inl (hab.trans hbc)
    · exact Or.inl (hbc ▸ hab)
    · exact Or.inl (hab ▸ hbc)
    · exact Or.inr ⟨hab.trans hbc, hle.trans hle'⟩
  have hsorted : ((db.join name).mergeSort fun a b => decide (a.InOrder b)).Pairwise
      fun a b => decide (a.InOrder b) = true :=
    List.pairwise_mergeSort (by simpa using htrans) (by simpa using htotal) _
  exact ⟨_, List.mergeSort_perm _ _, hsorted.imp of_decide_eq_true⟩

/-- The intervals that are fetched for a path are those that were stored for it. -/
theorem mem_nodesOf_fetched (hwf : db.WellFormed) (hnew : ∀ n ∈ db.rangeName, n.name ≠ name)
    (hext : Db.Extended name db db' stored groups) (hrows : Fetched db' name rows) {p : Text}
    {b e : ℕ} :
    (∃ o ∈ nodesOf p rows, o.base = b ∧ o.bound = e) ↔
      ∃ f ∈ stored, f.filePath = p ∧ (b, e) ∈ Yacet.intervals f.it := by
  rw [← InsertRange.Extended.mem_rows hwf hnew hext]
  simp only [nodesOf, List.mem_map, List.mem_filter, decide_eq_true_eq, hrows.perm.mem_iff]
  constructor
  · rintro ⟨o, ⟨row, ⟨hrow, hp⟩, rfl⟩, hb, he⟩
    exact ⟨row, hrow, hp, hb, he⟩
  · rintro ⟨row, hrow, hp, hb, he⟩
    exact ⟨row.node, ⟨row, ⟨hrow, hp⟩, rfl⟩, hb, he⟩

/-- A list that merges the intervals of another one covers the same positions. -/
theorem merged_of_mergeOf {ivs l os l' : List ItNode} (h : Merged ivs l) (hmerge : MergeOf os l')
    (hsame : ∀ b e, (∃ o ∈ os, o.base = b ∧ o.bound = e) ↔ (b, e) ∈ Yacet.intervals l) :
    Merged ivs l' := by
  have hof : ∀ o ∈ os, ∃ n ∈ l, n.base = o.base ∧ n.bound = o.bound := by
    intro o ho
    obtain ⟨n, hn, heq⟩ := List.mem_map.1 ((hsame o.base o.bound).1 ⟨o, ho, rfl, rfl⟩)
    rw [Prod.mk.injEq] at heq
    exact ⟨n, hn, heq⟩
  have hpos : ∀ o ∈ os, o.base < o.bound := by
    intro o ho
    obtain ⟨n, hn, hbase, hbound⟩ := hof o ho
    rw [← hbase, ← hbound]
    exact h.pos n hn
  refine ⟨h.proper, hmerge.separated fun o ho => (hpos o ho).le, fun n hn => ?_, fun x => ?_⟩
  · obtain ⟨o, ho, -, hbase, hle⟩ := hmerge.first n hn
    rw [hbase]
    exact (hpos o ho).trans_le hle
  · rw [hmerge.cover, ← h.cover]
    constructor
    · rintro ⟨o, ho, hle, hlt⟩
      obtain ⟨n, hn, hbase, hbound⟩ := hof o ho
      exact ⟨n, hn, hbase ▸ hle, hbound ▸ hlt⟩
    · rintro ⟨n, hn, hle, hlt⟩
      obtain ⟨o, ho, hbase, hbound⟩ := (hsame n.base n.bound).2 (List.mem_map_of_mem hn)
      exact ⟨o, ho, hbase ▸ hle, hbound ▸ hlt⟩

/-- A merge is empty iff there is nothing to merge. -/
theorem merged_eq_nil_iff {ivs l : List ItNode} (h : Merged ivs l) : l = [] ↔ ivs = [] := by
  constructor
  · rintro rfl
    rw [List.eq_nil_iff_forall_not_mem]
    intro a ha
    obtain ⟨n, hn, -⟩ := (h.cover a.base).2 ⟨a, ha, le_rfl, h.proper a ha⟩
    cases hn
  · rintro rfl
    rw [List.eq_nil_iff_forall_not_mem]
    intro n hn
    obtain ⟨a, ha, -⟩ := (h.cover n.base).1 ⟨n, hn, le_rfl, h.pos n hn⟩
    cases ha

/-! ## The marks -/

/-- The stored files are the given ones, each with the merge of its marked intervals. -/
structure StoredMarks (w : ℕ) (fs : List Source) (stored : List NamedFile) : Prop where
  paths : stored.map NamedFile.filePath = fs.map Source.path
  merged : ∀ g ∈ stored, ∃ f ∈ fs, f.path = g.filePath ∧
    Merged ((intervals f.input w).map node) g.it

theorem storedMarks_of_forall₂ {fs : List Source}
    (h : List.Forall₂ (fun e (f : NamedFile) => f.filePath = e.path ∧ Merged e.ivs f.it)
      (fs.map (entry w)) stored) : StoredMarks w fs stored := by
  rw [List.forall₂_map_left_iff] at h
  induction h with
  | nil => exact ⟨rfl, by simp⟩
  | cons hfg _ ih =>
      refine ⟨?_, fun g hg => ?_⟩
      · rw [List.map_cons, List.map_cons, ih.paths, hfg.1]
        rfl
      · rcases List.mem_cons.1 hg with rfl | hg
        · exact ⟨_, List.mem_cons_self, hfg.1.symm, hfg.2⟩
        · obtain ⟨f, hf, hrest⟩ := ih.merged g hg
          exact ⟨f, List.mem_cons_of_mem _ hf, hrest⟩

/-- The files that have a pair of marks of range `w`, in the order of their names, each with
separate intervals that cover exactly what is between its marks. -/
structure PrintsMarks (w : ℕ) (files : List Source) (printed : List (Text × List ItNode)) :
    Prop where
  ordered : printed.Pairwise fun f g => f.1 < g.1
  path : ∀ path, (∃ p ∈ printed, p.1 = path) ↔
    ∃ f ∈ files, f.path = path ∧ intervals f.input w ≠ []
  merged : ∀ p ∈ printed, ∀ f ∈ files, f.path = p.1 →
    Merged ((intervals f.input w).map node) p.2

theorem mem_marked {f : Source} : f ∈ marked w files ↔ f ∈ files ∧ positions (isMark w) f.input ≠
    [] := by
  simp [marked]

/-- A file with a pair of marks is a marked one. -/
theorem mem_marked_of_intervals {f : Source} (hf : f ∈ files) (hne : intervals f.input w ≠ []) :
    f ∈ marked w files := by
  refine mem_marked.2 ⟨hf, fun hnil => hne ?_⟩
  rw [intervals, offsets, hnil]
  rfl

/-- What is fetched of the stored files is what the marks give. -/
theorem printsMarks (hnodup : (files.map Source.path).Nodup)
    (hstored : StoredMarks w (marked w files) stored) {printed : List (Text × List ItNode)}
    (hprinted : RangeFiles rows printed)
    (hrows : ∀ p b e, (∃ o ∈ nodesOf p rows, o.base = b ∧ o.bound = e) ↔
      ∃ g ∈ stored, g.filePath = p ∧ (b, e) ∈ Yacet.intervals g.it) :
    PrintsMarks w files printed := by
  have hdistinct : (stored.map NamedFile.filePath).Nodup := by
    rw [hstored.paths]
    exact hnodup.sublist (List.filter_sublist.map _)
  -- a path is fetched iff the list stored for it is not empty
  have hpath : ∀ path, (∃ row ∈ rows, row.filePath = path) ↔
      ∃ g ∈ stored, g.filePath = path ∧ g.it ≠ [] := by
    intro path
    constructor
    · rintro ⟨row, hrow, hp⟩
      have hmem : row.node ∈ nodesOf path rows :=
        List.mem_map_of_mem (List.mem_filter.2 ⟨hrow, decide_eq_true hp⟩)
      obtain ⟨g, hg, hgp, hiv⟩ := (hrows path row.base row.bound).1 ⟨row.node, hmem, rfl, rfl⟩
      obtain ⟨n, hn, -⟩ := List.mem_map.1 hiv
      exact ⟨g, hg, hgp, List.ne_nil_of_mem hn⟩
    · rintro ⟨g, hg, hgp, hne⟩
      obtain ⟨n, hn⟩ := List.exists_mem_of_ne_nil _ hne
      obtain ⟨o, ho, -⟩ := (hrows path n.base n.bound).2 ⟨g, hg, hgp, List.mem_map_of_mem hn⟩
      obtain ⟨row, hrow, -⟩ := List.mem_map.1 ho
      obtain ⟨hrow, hp⟩ := List.mem_filter.1 hrow
      exact ⟨row, hrow, of_decide_eq_true hp⟩
  refine ⟨hprinted.ordered, fun path => ?_, fun p hp f hf hfp => ?_⟩
  · rw [hprinted.path, hpath]
    constructor
    · rintro ⟨g, hg, hgp, hne⟩
      obtain ⟨f, hf, hfg, hmerged⟩ := hstored.merged g hg
      refine ⟨f, (mem_marked.1 hf).1, hfg.trans hgp, fun hnil => hne ?_⟩
      rw [merged_eq_nil_iff hmerged, hnil]
      rfl
    · rintro ⟨f, hf, hfp, hne⟩
      have hmem : f.path ∈ stored.map NamedFile.filePath := by
        rw [hstored.paths]
        exact List.mem_map_of_mem (mem_marked_of_intervals hf hne)
      obtain ⟨g, hg, hgp⟩ := List.mem_map.1 hmem
      obtain ⟨f', hf', hfg, hmerged⟩ := hstored.merged g hg
      obtain rfl : f' = f :=
        List.inj_on_of_nodup_map hnodup (mem_marked.1 hf').1 hf (hfg.trans hgp)
      refine ⟨g, hg, hgp.trans hfp, fun hnil => hne ?_⟩
      exact List.map_eq_nil_iff.1 ((merged_eq_nil_iff hmerged).1 hnil)
  · obtain ⟨g, hg, hgp, -⟩ := (hpath p.1).1 ((hprinted.path p.1).1 ⟨p, hp, rfl⟩)
    obtain ⟨f', hf', hfg, hmerged⟩ := hstored.merged g hg
    obtain rfl : f' = f :=
      List.inj_on_of_nodup_map hnodup (mem_marked.1 hf').1 hf (hfg.trans (hgp.trans hfp.symm))
    refine merged_of_mergeOf hmerged (hprinted.merge p hp) fun b e => ?_
    rw [hrows]
    constructor
    · rintro ⟨g', hg', hgp', hiv⟩
      obtain rfl : g' = g := List.inj_on_of_nodup_map hdistinct hg' hg (hgp'.trans hgp.symm)
      exact hiv
    · intro hiv
      exact ⟨g, hg, hgp, hiv⟩

/-- **What is printed is what was marked.**  The marks are taken out of the files, `-g` makes a
range of a line that is left, and stores it in tables that hold any other ranges; whatever order the
database gives the rows of equal bases, a thread of `-p` then prints the files with a pair of marks,
each with exactly the stretches between its marks. -/
theorem marks_print {outs : List (List Byte)} {list : Text} {env : ℕ → Mem.Range.Env}
    (hnodup : (files.map Source.path).Nodup) (hparse : parseFiles files = .ok (outs, list))
    (hline : line ++ ['\n'] ∈ CString.lines '\n' list)
    (hnum : rangeNumber (line ++ ['\n']) = some w)
    (hfit : AllFit env w 0 (marked w files)) (prog exe : Text) (fs : ℕ → Cell) :
    ∃ s stored, newRange (testArgs prog exe line) env fs = .ok s ∧
      Lists s.range (stored.map fun f : NamedFile => (f.filePath, f.it)) ∧
      ∀ db : Db, db.WellFormed → (∀ n ∈ db.rangeName, n.name ≠ rangeName w) →
        ∃ db' ids, queryInsertNamedRange db (rangeName w) stored = some (db', ids) ∧
          (∃ rows, Fetched db' (rangeName w) rows) ∧
          ∀ rows, Fetched db' (rangeName w) rows → ∃ printed, PrintsMarks w files printed ∧
            ∀ fuel ok env' malloc junk, junk.length = 8 → (∀ f ∈ printed, f.2.length < fuel) →
              Provides env' printed.length → (∀ row ∈ rows, malloc row.offsetId = true) →
              ∃ p, thdPrange fuel (rangeName w) rows ok env' malloc junk = .ok p ∧
                p.CorrectRange (rangeName w) rows ok printed := by
  rw [parseFiles_eq] at hparse
  cases hparse
  obtain ⟨v, line', hv, heq, hnum'⟩ := mem_lines_fileOf (written_table files) hline
  obtain rfl : v = w := Option.some.inj (hnum'.symm.trans hnum)
  obtain rfl : line = line' := (List.append_left_inj _).1 heq
  obtain ⟨s, hs, -, hshows⟩ := (line_builds_iff hnodup hv prog exe env fs).2 hfit
  obtain ⟨stored, hlists, hforall⟩ := exists_stored hshows
  have hstored := storedMarks_of_forall₂ hforall
  refine ⟨s, stored, hs, hlists, fun db hwf hnew => ?_⟩
  obtain ⟨db', groups, hins, hext⟩ := hwf.extended hnew stored
  refine ⟨db', _, hins, exists_fetched db' _, fun rows hrows => ?_⟩
  have hfetched := fun p b e => mem_nodesOf_fetched hwf hnew hext hrows (p := p) (b := b) (e := e)
  -- every path that is fetched is that of a marked file
  have hpaths : ∀ row ∈ rows, ∃ f ∈ marked v files, f.path = row.filePath := by
    intro row hrow
    have hmem : row.node ∈ nodesOf row.filePath rows :=
      List.mem_map_of_mem (List.mem_filter.2 ⟨hrow, decide_eq_true rfl⟩)
    obtain ⟨g, hg, hgp, -⟩ := (hfetched _ _ _).1 ⟨row.node, hmem, rfl, rfl⟩
    obtain ⟨f, hf, hfg, -⟩ := hstored.merged g hg
    exact ⟨f, hf, hfg.trans hgp⟩
  have hresult : ResultSet rows := by
    refine ⟨hrows.sorted, fun row hrow => ?_, fun row hrow => ?_⟩
    · obtain ⟨f, -, hfp⟩ := hpaths row hrow
      rw [← hfp]
      exact f.path_ne
    · obtain ⟨f, hf, hfp⟩ := hpaths row hrow
      obtain ⟨t, ht⟩ := List.mem_iff_getElem?.1 hf
      rw [← hfp]
      exact (hfit t f ht).1.1.1
  obtain ⟨st, hrun, hst⟩ := fetch_run [] hresult
  exact ⟨_, printsMarks hnodup hstored (rangeFiles_of_exact hst) hfetched,
    fun fuel ok env' malloc junk hjunk hfuel hlib hmalloc =>
      thdPrange_eq _ hrun hresult.named rfl ok hjunk hfuel hlib hmalloc⟩

/-- The second range of the two files, stored as the first one of a database. -/
theorem marks_print_second :
    let files := [markedOnce, markedTwice]
    let db : Db := ⟨[], [], [], [], 1, 1, 1⟩
    ∃ s stored db' ids,
      newRange (testArgs ['y'] ['c'] "Range02 -f b -r 0,1".toList) moving (fun _ => .null) = .ok s ∧
      queryInsertNamedRange db (rangeName 1) stored = some (db', ids) ∧
      ∃ rows, Fetched db' (rangeName 1) rows ∧ ∃ printed, PrintsMarks 1 files printed ∧
        ((∀ f ∈ printed, f.2.length < 9) → Provides moving printed.length →
          ∃ p, thdPrange 9 (rangeName 1) rows true moving (fun _ => true) (List.replicate 8 'x') =
            .ok p ∧
            p.CorrectRange (rangeName 1) rows true printed) := by
  intro files db
  have hfit : AllFit moving 1 0 (marked 1 files) := by
    intro t f ht
    obtain rfl : f = markedTwice := List.mem_singleton.1 (List.mem_of_getElem? ht)
    refine ⟨⟨⟨by decide, rfl⟩, slotFits_moving _⟩, ?_⟩
    unfold Proper
    decide
  have hnodup : (files.map Source.path).Nodup := by decide
  have hline :
    "Range02 -f b -r 0,1".toList ++ ['\n'] ∈ CString.lines '\n' (fileOf (lineAfter files)) := by
    decide
  obtain ⟨s, stored, hs, -, hdb⟩ := marks_print hnodup (parseFiles_eq files) hline (by decide) hfit
    ['y'] ['c'] fun _ => .null
  obtain ⟨db', ids, hins, ⟨rows, hrows⟩, hprint⟩ :=
    hdb db ⟨⟨by decide, by decide⟩, by decide, by decide, by decide, by decide⟩ (by decide)
  obtain ⟨printed, hmarks, hrun⟩ := hprint rows hrows
  exact ⟨s, stored, db', ids, hs, hins, rows, hrows, printed, hmarks, fun hfuel hlib =>
    hrun 9 true moving (fun _ => true) _ rfl hfuel hlib fun _ _ => rfl⟩

end Bo

end Yacet
