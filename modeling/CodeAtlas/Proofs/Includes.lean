import CodeAtlas.Proofs.FileResults

/-!
# Includes

Names of files are computed in four places: by the walk that builds the graph, by the scanner that
makes a result, for the directory that a result records, and for the file that an include leads to.
Here they are brought together. The directory that a result records is the one its file lies in
(`Survey.absoluteDir_ofNames`), an include leads where its names say (`Resolve.included_eq`), and so
an include of a scanned file is resolved to the name of that file's node.
-/

namespace CodeAtlas

namespace Path

open FileTree

variable {place : List String} {s : String} {cs : List Char}

/-! ### Segments -/

theorem segments_append_slash (as bs : List Char) :
    segments (as ++ '/' :: bs) = segments as ++ segments bs := by
  rw [segments, Chars.splitOn_append, List.filter_append]
  rfl

theorem segments_join {segs : List (List Char)} (h : ∀ p ∈ segs, '/' ∉ p ∧ isStep p = true) :
    segments (Chars.join ['/'] segs) = segs := by
  by_cases hne : segs = []
  · subst hne
    rfl
  · rw [segments, Chars.splitOn_join hne fun p hp => (h p hp).1]
    exact List.filter_eq_self.mpr fun p hp => (h p hp).2

theorem root_cases (cs : List Char) : root cs = [] ∨ root cs = ['/'] ∨ root cs = ['/', '/'] := by
  fun_cases root cs <;> simp

theorem segments_parentChars (cs : List Char) :
    segments (parentChars cs) = (segments cs).dropLast := by
  have hsegs : ∀ p ∈ (segments cs).dropLast, '/' ∉ p ∧ isStep p = true := by
    intro p hp
    have hp := List.mem_filter.mp (List.mem_of_mem_dropLast hp)
    exact ⟨fun hc => (Chars.mem_of_mem_splitOn hp.1 hc).2 rfl, hp.2⟩
  have hslash : ∀ rest, segments ('/' :: rest) = segments rest :=
    fun rest => segments_append_slash [] rest
  rw [parentChars]
  generalize (segments cs).dropLast = segs at hsegs
  rcases root_cases cs with hroot | hroot | hroot
  · rw [hroot]
    cases segs with
    | nil => rfl
    | cons p ps => exact segments_join hsegs
  · rw [hroot, assemble_slash, hslash, segments_join hsegs]
  · rw [hroot]
    change segments ('/' :: '/' :: Chars.join ['/'] segs) = segs
    rw [hslash, hslash, segments_join hsegs]

theorem normalize_eq_pathOf (hroot : root s.toList = ['/'])
    (hsegs : segments s.toList = place.map String.toList) : normalize s = pathOf place := by
  rw [normalize, hroot, hsegs, assemble_slash, ← toList_pathOf, String.ofList_toList]

theorem Normal.root_append (h : Normal s) (rest : String) : root (s ++ rest).toList = ['/'] := by
  obtain ⟨place, hne, hnames, rfl⟩ := h
  obtain ⟨n, ns, rfl⟩ := List.exists_cons_of_ne_nil hne
  obtain ⟨c, cs, hc, heq⟩ := exists_toList_pathOf_cons (hnames n (List.mem_cons_self ..)) ns
  rw [String.toList_append, heq]
  simp [root, hc]

theorem Normal.pathText (h : Normal s) : PathText s := by
  obtain ⟨place, -, hnames, rfl⟩ := h
  exact pathText_pathOf hnames

theorem Normal.ne_empty (h : Normal s) : s ≠ "" := by
  obtain ⟨place, hne, hnames, rfl⟩ := h
  exact (spells_pathOf hne hnames).ne_empty

end Path

namespace Survey

open FileTree Resolve

variable {source base : String} {ns : List String}

/-! ### The directory of a result -/

theorem segments_nodeName {parents : List String} (hp : ∀ n ∈ parents, PathName n)
    (hb : PathName base) (hns : ∀ n ∈ ns, PathName n)
    (hsource : source = pathOf (parents ++ [base]))
    (honly : Text.OnlyAtStart (parentSlash source) (Path.descend source ns)) :
    Path.segments (nodeName source ns).toList = (base :: ns).map String.toList := by
  have hall : ∀ n ∈ parents ++ base :: ns, PathName n :=
    List.forall_mem_append.mpr ⟨hp, List.forall_mem_cons.mpr ⟨hb, hns⟩⟩
  have hparent : Path.parent source = pathOf parents := by rw [hsource, Path.parent_pathOf hp hb]
  have hlead := lead_append_nodeName ⟨_, by simp, pathNames_concat hp hb, hsource⟩ hns honly
  rw [lead, hparent, parentSlash, hparent, hsource, Path.descend_pathOf_concat hp hb hns,
    ← hsource] at hlead
  have hsegs := congrArg (fun s => Path.segments s.toList) hlead
  simp only [Path.segments_pathOf hall] at hsegs
  split_ifs at hsegs with hroot
  · rw [pathOf_eq_slash_iff hp] at hroot
    subst hroot
    simpa using hsegs
  · rw [String.toList_append, String.toList_append, List.append_assoc] at hsegs
    change Path.segments ((pathOf parents).toList ++ '/' :: (nodeName source ns).toList) =
      _ at hsegs
    rw [Path.segments_append_slash, Path.segments_pathOf hp, List.map_append] at hsegs
    exact List.append_cancel_left hsegs

/-- The directory that is recorded with the name of a node is the one in which the file lies. -/
theorem absoluteDir_ofNames {name : String} (h : Path.Normal source)
    (hns : ∀ n ∈ ns ++ [name], PathName n)
    (honly : Text.OnlyAtStart (parentSlash source) (Path.descend source (ns ++ [name])))
    (relative content : String) :
    (FileDetails.ofNames source relative (nodeName source (ns ++ [name])) content).absoluteDir =
      Path.descend source ns := by
  obtain ⟨parents, base, hp, hb, hsource⟩ := h.exists_base
  have hns' : ∀ n ∈ ns, PathName n := fun n hn => hns n (List.mem_append_left _ hn)
  have hparent : Path.parent source = pathOf parents := by rw [hsource, Path.parent_pathOf hp hb]
  have hdir : Path.descend source ns = pathOf (parents ++ base :: ns) := by
    rw [hsource, Path.descend_pathOf_concat hp hb hns']
  have hsegs : Path.segments (Path.parent (nodeName source (ns ++ [name]))).toList =
      (base :: ns).map String.toList := by
    rw [Path.parent, String.toList_ofList, Path.segments_parentChars,
      segments_nodeName hp hb hns hsource honly, ← List.cons_append, List.map_append,
      List.map_singleton, List.dropLast_concat]
  rw [FileDetails.ofNames, hparent, hdir]
  apply Path.normalize_eq_pathOf
  · by_cases hne : parents = []
    · -- the name is the path then, and its own slash is the third
      subst hne
      have hlead := lead_append_nodeName h hns honly
      rw [lead, if_pos (by rw [hparent]; rfl), String.empty_append] at hlead
      rw [hlead, Path.descend_concat, (h.descend hns').parent_join (hns name (by simp)), hdir,
        String.toList_append, toList_pathOf (_ ++ _)]
      rfl
    · rw [String.append_assoc]
      exact Path.Normal.root_append ⟨parents, hne, hp, rfl⟩ _
  · rw [String.toList_append, String.toList_append, List.append_assoc]
    change Path.segments ((pathOf parents).toList ++ '/' ::
      (Path.parent (nodeName source (ns ++ [name]))).toList) = _
    rw [Path.segments_append_slash, Path.segments_pathOf hp, hsegs, List.map_append]

end Survey

namespace Resolve

open FileTree Survey

variable {disk : Disk} {source dir d : String} {place : List String} {path : String}

/-! ### Where an include leads -/

/-- The path that an include in a directory names, by its names alone. -/
def includePath (dir d : String) : String := pathOf (lexicalPlace (dir ++ "/" ++ d))

theorem resolve?_include (h : disk.tree.Plain) (hdir : Path.Normal dir) :
    disk.resolve? (dir ++ "/" ++ d) = if PathText d then some (includePath dir d) else none := by
  split_ifs with hd
  · refine Disk.resolve?_eq_lexicalPlace h ((hdir.pathText.append (by decide)).append hd) ?_
    rw [String.append_assoc]
    exact hdir.root_append _
  · refine Disk.resolve?_eq_none fun hpath => hd fun c hc => hpath c ?_
    rw [String.toList_append]
    exact List.mem_append_right _ hc

theorem withSlash_normal (h : Path.Normal source) : withSlash source = source ++ "/" := by
  obtain ⟨parents, base, -, hb, rfl⟩ := h.exists_base
  obtain ⟨lead, hlead⟩ := exists_pathOf_concat parents base
  rw [withSlash, hlead, List.getLast?_append_of_ne_nil _ hb.toList_ne_nil, if_neg]
  intro hlast
  exact hb.noSlash (List.mem_of_getLast? (beq_iff_eq.mp hlast))

theorem startsWith_of_contains (h : Path.Normal source) (hpath : Path.Normal path)
    (hbelow : Text.contains path (source ++ "/") = true)
    (honly : Text.OnlyAtStart (parentSlash source) path) :
    Text.startsWith path (parentSlash source) = true ↔ Path.parent source ≠ "/" := by
  constructor
  · intro hstart hroot
    rw [Text.startsWith, List.isPrefixOf_iff_prefix, toList_parentSlash_of_root hroot] at hstart
    exact hpath.not_slashes hstart
  · intro hroot
    have hsource : (parentSlash source).toList <+: source.toList := by
      have hstart : Text.startsWith (Path.descend source []) (parentSlash source) = true :=
        (startsWith_parentSlash h (by simp)).mpr hroot
      rwa [Text.startsWith, List.isPrefixOf_iff_prefix] at hstart
    have hprefix : (parentSlash source).toList <+: (source ++ "/").toList := by
      rw [String.toList_append]
      exact hsource.trans (List.prefix_append ..)
    rw [Text.contains, Chars.contains_iff_infix] at hbelow
    obtain ⟨before, after, heq⟩ := hprefix.isInfix.trans hbelow
    obtain rfl := honly before after heq.symm
    rw [Text.startsWith, List.isPrefixOf_iff_prefix]
    exact ⟨after, by simpa using heq⟩

theorem normal_includePath (h : Path.Normal source) (hdir : Path.Normal dir) (hd : PathText d)
    (hbelow : Text.contains (includePath dir d) (source ++ "/") = true) :
    Path.Normal (includePath dir d) := by
  have hnames :=
    pathNames_lexicalPlace ((hdir.pathText.append (by decide : PathText "/")).append hd)
  refine ⟨_, fun hnil => ?_, hnames, rfl⟩
  rw [includePath, hnil, Text.contains, Chars.contains_iff_infix] at hbelow
  have hlen := hbelow.length_le
  have hpos := List.length_pos_iff.mpr (mt String.toList_eq_nil_iff.mp h.ne_empty)
  rw [String.toList_append, List.length_append] at hlen
  have hslash : (pathOf []).toList.length = 1 := rfl
  simp at hlen hslash hpos
  omega

/-- The path that is looked up for a name is the one that the name has with what stands before all
names, with two more slashes if the parent of the source directory is the root. -/
theorem pathExists_of_lead {name path : String} (hplain : disk.tree.Plain)
    (hpath : Path.Normal path) (hlead : lead source ++ name = path) :
    disk.pathExists (parentSlash source ++ name) = true ↔
      (Path.parent source = "/" → path.utf8ByteSize + 2 < maxPath) ∧
      disk.pathExists path = true := by
  by_cases hroot : Path.parent source = "/"
  · obtain ⟨place, hne, hnames, rfl⟩ := hpath
    rw [lead, if_pos hroot, String.empty_append] at hlead
    have hslashes : parentSlash source = "/" ++ "/" := by rw [parentSlash, hroot]
    have hspells := spells_pathOf hne hnames
    rw [hlead, hslashes, String.append_assoc, Disk.pathExists, Disk.pathExists,
      hplain.pathExists_iff hspells.slash_append.slash_append hne,
      hplain.pathExists_iff hspells hne]
    have hsize : ("/" ++ ("/" ++ pathOf place)).utf8ByteSize = (pathOf place).utf8ByteSize + 2 := by
      rw [String.utf8ByteSize_append, String.utf8ByteSize_append]
      change 1 + (1 + _) = _
      omega
    rw [hsize]
    constructor
    · rintro ⟨hlen, hget⟩
      exact ⟨fun _ => hlen, by omega, hget⟩
    · rintro ⟨hlen, -, hget⟩
      exact ⟨hlen hroot, hget⟩
  · rw [lead, if_neg hroot] at hlead
    rw [hlead, and_iff_right fun h => absurd h hroot]

theorem pathExists_parentSlash_append (hplain : disk.tree.Plain) (hpath : Path.Normal path)
    (hstart : Text.startsWith path (parentSlash source) = true ↔ Path.parent source ≠ "/")
    (honly : Text.OnlyAtStart (parentSlash source) path) :
    disk.pathExists (parentSlash source ++ relativeName source path) = true ↔
      (Path.parent source = "/" → path.utf8ByteSize + 2 < maxPath) ∧ disk.pathExists path = true :=
  pathExists_of_lead hplain hpath (lead_append_projectName hstart honly)

/-- What an include means: the name of the path that it leads to, if that is below the source
directory and there, and can be looked up; else the include itself. -/
theorem included_eq (hplain : disk.tree.Plain) (h : Path.Normal source) (hdir : Path.Normal dir)
    (honly : Text.OnlyAtStart (parentSlash source) (includePath dir d)) :
    included disk d dir source =
      if PathText d ∧ Text.contains (includePath dir d) (source ++ "/") = true ∧
          (Path.parent source = "/" → (includePath dir d).utf8ByteSize + 2 < maxPath) ∧
          disk.pathExists (includePath dir d) = true
      then relativeName source (includePath dir d) else d := by
  have hsource : (source == "") = false := beq_eq_false_iff_ne.mpr h.ne_empty
  rw [included, fromDirectory, resolve?_include hplain hdir]
  by_cases hd : PathText d
  · rw [if_pos hd]
    simp only [hsource, withSlash_normal h, hd, true_and, Bool.false_eq_true, if_false]
    by_cases hbelow : Text.contains (includePath dir d) (source ++ "/") = true
    · have hpath := normal_includePath h hdir hd hbelow
      simp only [hbelow, if_true, true_and,
        pathExists_parentSlash_append hplain hpath
          (startsWith_of_contains h hpath hbelow honly) honly]
    · simp [hbelow]
  · simp [hd]

end Resolve

namespace Survey

open FileTree Resolve

variable {disk : Disk} {f : Filters} {source name d dir : String} {ns ms : List String}

theorem contains_descend (h : Path.Normal source) (hns : ∀ n ∈ ns, PathName n) (hne : ns ≠ []) :
    Text.contains (Path.descend source ns) (source ++ "/") = true := by
  obtain ⟨place, hplace, hnames, rfl⟩ := h
  rw [Path.descend_pathOf hnames hns, pathOf_append hplace hne, Text.contains,
    Chars.contains_iff_infix]
  exact ⟨[], (Text.join "/" ns).toList, String.toList_append.symm⟩

theorem Tidy.pathExists_descend {t : FileTree} (h : Tidy disk source) (ht : Holds disk source ns t)
    (hlen : (Path.descend source ns).utf8ByteSize < maxPath) :
    disk.pathExists (Path.descend source ns) = true := by
  obtain ⟨place, hne, hnames, rfl, hget⟩ := h.get?_of_holds ht
  have hne' : place ++ ns ≠ [] := by simp [hne]
  rw [Path.descend_pathOf hnames (h.pathNames ht)] at hlen ⊢
  exact (h.plain.pathExists_iff (spells_pathOf hne' (h.plain.pathNames hget)) hne').mpr
    ⟨hlen, by rw [hget]; rfl⟩

/-- An include that leads to a scanned file means the node of that file, if the include can be
encoded and the path can be looked up. -/
theorem Regular.included_of_scans (h : Regular disk f source) (hdir : Path.Normal dir)
    (hscans : Scans disk f source ms name)
    (hlen : (Path.descend source (ms ++ [name])).utf8ByteSize < maxPath)
    (htarget : includePath dir d = Path.descend source (ms ++ [name])) :
    included disk d dir source =
      if PathText d ∧ (Path.parent source = "/" → (includePath dir d).utf8ByteSize + 2 < maxPath)
      then nodeName source (ms ++ [name]) else d := by
  obtain ⟨content, hfile⟩ := hscans.isFile
  have honly := h.files _ _ hscans.toVisits
  have hbelow := contains_descend h.normal (h.pathNames hfile) (by simp)
  have hexists := h.pathExists_descend hfile hlen
  rw [included_eq h.plain h.normal hdir (htarget ▸ honly), htarget]
  simp only [hbelow, hexists, true_and, and_true]
  rfl

end Survey

namespace Scanner

theorem resolveImport_eq_included {language : Language} {ctx : ScanContext} {r : ScanResult}
    {source : String} {details : FileDetails}
    (hlanguage : language = .c ∨ language = .cpp ∨ language = .objc)
    (hsource : ctx.settings.source = .text source) (hdetails : r.details = .file details)
    (d : String) :
    resolveImport language ctx r d =
      .ok (Resolve.included ctx.disk d details.absoluteDir source) := by
  have hpath : ctx.settings.sourcePath = .ok source := by rw [Settings.sourcePath, hsource]
  have hplace : (placeOf source r).absoluteDir = details.absoluteDir := by
    rw [placeOf, ScanResult.file?, hdetails]
    rfl
  rw [resolveImport, hpath, ← hplace]
  rcases hlanguage with rfl | rfl | rfl <;> rfl

end Scanner

namespace Run

open Survey FileTree Resolve

/-- After the files of a regular project have been scanned, the scanners of C, C++ and Objective-C
have a result of every file of the graph that they take, and from it includes are resolved by their
names. An include that leads to a scanned file becomes the name of that file's node, unless it
cannot be encoded, or the parent of the source directory is the root and the path is too long with
two more slashes; then it stays. An include that leads to nothing stays as well. -/
theorem scanFiles_resolveImport (i : Nat) (p p' : Program) (a : Analysis) (source : String)
    (ha : p.configuration.analyses[i]? = some a) (hsource : a.settings.source = .text source)
    (hgraph : a.graphs.get? .fileSystem = none ∨
      a.graphs.get? .fileSystem = some (.new .fileSystem))
    (h : Regular p.session.disk a.settings.filters source)
    (hok : (do onAnalysis i Work.buildFileSystem; scanFiles i : Run Unit) p = .ok () p') :
    ∃ a' view, p'.configuration.analyses[i]? = some a' ∧ a'.graphs.get? .fileSystem = some view ∧
      a'.settings = a.settings ∧ p'.session.disk = p.session.disk ∧
      ∀ n ∈ view.fileNodes.values, ∀ s ∈ p'.scanners, n.isDirectory = false →
        Language.ofExtension? (Path.suffix n.name) a.settings.filters.languages =
          .ok (some s.language) →
        s.language = .c ∨ s.language = .cpp ∨ s.language = .objc →
        ∃ r ns base, s.results.get? n.name = some r ∧ r.isFile = true ∧
          r.language = some s.language ∧
          r.uniqueName = n.name ∧ Scans p.session.disk a.settings.filters source ns base ∧
          n.name = nodeName source (ns ++ [base]) ∧
          ∀ ctx d, ctx.settings = a'.settings → ctx.disk = p'.session.disk →
            (∀ ms name, Scans p.session.disk a.settings.filters source ms name →
              includePath (Path.descend source ns) d = Path.descend source (ms ++ [name]) →
              Marked view.graph (nodeName source (ms ++ [name])) false ∧
              Scanner.resolveImport s.language ctx r d = .ok
                (if PathText d ∧
                    (Path.parent source = "/" →
                      (includePath (Path.descend source ns) d).utf8ByteSize + 2 < maxPath)
                  then nodeName source (ms ++ [name]) else d)) ∧
            (p'.session.disk.pathExists (includePath (Path.descend source ns) d) = false →
              Text.OnlyAtStart (parentSlash source) (includePath (Path.descend source ns) d) →
              Scanner.resolveImport s.language ctx r d = .ok d) := by
  obtain ⟨hlen, graphs, view, hview, hshows, hscanning⟩ :=
    exists_scanning (fun _ => True) (fun _ _ _ => trivial) ha hsource
    hgraph (fun _ _ _ _ _ => trivial) (fun _ _ _ => trivial) h hok
  obtain ⟨a', ha', hsettings, rfl, -⟩ := hscanning.analysis
  refine ⟨a', view, ha', hview, hsettings, hscanning.disk,
    fun n hn s hs hfile hchosen hlanguage => ?_⟩
  have hlanguages : p'.scanners.map Scanner.language = p.scanners.map Scanner.language :=
    hscanning.languages
  have havailable : s.language ∈ p.scanners.map Scanner.language :=
    hlanguages ▸ List.mem_map_of_mem hs
  obtain ⟨m, r, hname, hget, hd⟩ := (hscanning.scanners s hs).2 n hn ⟨hfile, hchosen, havailable⟩
  obtain ⟨place, hnode⟩ := (hshows.mem_values n).mp hn
  have hplace := h.of_nodeAt hnode
  have hnodeName := hnode.name_eq
  cases hnode with
  | root => cases hfile
  | directory _ => cases hfile
  | @file ns base hscans =>
    obtain ⟨content, -, hdetails⟩ := hd.details
    rw [hname, hnodeName] at hdetails
    have habsolute :=
      absoluteDir_ofNames h.normal hplace.1 hplace.2 (nodeName source (ns ++ [base])) content
    have hdir : Path.Normal (Path.descend source ns) :=
      h.normal.descend fun n hn => hplace.1 n (List.mem_append_left _ hn)
    refine ⟨r, ns, base, hget, hd.isFile, hd.language, hd.uniqueName.trans hname, hscans,
      hnodeName, ?_⟩
    intro ctx d hctx hdisk
    have hdisk' : ctx.disk = p.session.disk := hdisk.trans hscanning.disk
    have hsource' : ctx.settings.source = .text source := by rw [hctx, hsettings, hsource]
    have hresolve := Scanner.resolveImport_eq_included hlanguage hsource' hdetails d
    rw [habsolute, hdisk'] at hresolve
    constructor
    · intro ms name hscans' htarget
      have hmarked := NodeAt.file hscans'
      rw [hresolve, h.included_of_scans hdir hscans' (hlen _ _ hscans') htarget]
      exact ⟨hshows.marked hmarked, rfl⟩
    · intro hmissing honly
      rw [hscanning.disk] at hmissing
      rw [hresolve, included_eq h.plain h.normal hdir honly, if_neg]
      rintro ⟨-, -, -, hexists⟩
      simp [hmissing] at hexists

end Run

namespace Sample

open Survey FileTree Resolve

theorem scans_main : Scans disk filters "/w/proj" [] "a.c" :=
  ⟨⟨⟨_, _, rfl, rfl⟩, by decide, by decide⟩, by decide +kernel⟩

theorem exists_taken : ∃ p' a' view n s,
    (do Run.onAnalysis 0 Work.buildFileSystem; Run.scanFiles 0 : Run Unit) program = .ok () p' ∧
      p'.configuration.analyses[0]? = some a' ∧ a'.graphs.get? .fileSystem = some view ∧
      n ∈ view.fileNodes.values ∧
      n.name = "proj/a.c" ∧ n.isDirectory = false ∧ s ∈ p'.scanners ∧ s.language = .c := by
  obtain ⟨p', a', hp', ha', -⟩ := exists_scanned
  have hok := of_scanned? hp'
  obtain ⟨-, graphs, view, hview, hshows, hscanning⟩ :=
    Run.exists_scanning (fun _ => True) (fun _ _ _ => trivial)
    (i := 0) (a := job.analysis) rfl rfl (.inr rfl) (fun _ _ _ _ _ => trivial)
      (fun _ _ _ => trivial) regular hok
  obtain ⟨a'', ha'', -, rfl, -⟩ := hscanning.analysis
  obtain rfl := Option.some.inj (ha'.symm.trans ha'')
  have hlanguages : p'.scanners.map Scanner.language = program.scanners.map Scanner.language :=
    hscanning.languages
  have hlanguage : Language.c ∈ p'.scanners.map Scanner.language := by
    rw [hlanguages]
    decide
  obtain ⟨s, hs, hc⟩ := List.mem_map.mp hlanguage
  exact ⟨p', a', view, _, s, hok, ha', hview,
    (hshows.mem_values _).mpr ⟨_, .file scans_main⟩, by decide, rfl, hs, hc⟩

theorem scanFiles_resolveImport_sample : ∃ p' s r,
    (do Run.onAnalysis 0 Work.buildFileSystem; Run.scanFiles 0 : Run Unit) program = .ok () p' ∧
      s ∈ p'.scanners ∧ s.language = .c ∧ s.results.get? "proj/a.c" = some r ∧
      Scanner.resolveImport .c ⟨0, job.analysis.settings, disk, []⟩ r "./sub/../sub/b.h" =
        .ok "proj/sub/b.h" ∧
      Scanner.resolveImport .c ⟨0, job.analysis.settings, disk, []⟩ r "sub/missing.h" =
        .ok "sub/missing.h" := by
  obtain ⟨p', a', view, n, s, hok, ha', hview, hn, hname, hfile, hs, hc⟩ := exists_taken
  obtain ⟨a'', view', ha'', hview', hsettings, hdisk, hresults⟩ :=
    Run.scanFiles_resolveImport 0 program p' job.analysis
    "/w/proj" rfl rfl (.inr rfl) regular hok
  obtain rfl := Option.some.inj (ha'.symm.trans ha'')
  obtain rfl := Option.some.inj (hview.symm.trans hview')
  have hchosen : Language.ofExtension? (Path.suffix n.name) filters.languages =
      .ok (some s.language) := by
    rw [hname, hc]
    decide +kernel
  obtain ⟨r, ns, base, hget, -, -, -, hscans, hplace, hresolve⟩ :=
    hresults n hn s hs hfile hchosen (.inl hc)
  -- the result is that of the main file, so names are taken from the source directory
  obtain ⟨rfl, rfl⟩ : ns = [] ∧ base = "a.c" := by
    have hmain : nodeName "/w/proj" ([] ++ ["a.c"]) = "proj/a.c" := by decide
    have hsame := regular.place_injective (.file hscans) (.file scans_main)
      (hplace.symm.trans (hname.trans hmain.symm))
    exact List.append_inj' hsame rfl |>.imp_right List.singleton_inj.mp
  rw [hc] at hresolve
  rw [hname] at hget
  obtain ⟨hfound, -⟩ :=
    hresolve ⟨0, job.analysis.settings, disk, []⟩ "./sub/../sub/b.h" hsettings.symm hdisk.symm
  obtain ⟨-, hmissing⟩ :=
    hresolve ⟨0, job.analysis.settings, disk, []⟩ "sub/missing.h" hsettings.symm hdisk.symm
  obtain ⟨-, hheader⟩ := hfound ["sub"] "b.h" scans_header (by decide +kernel)
  rw [if_pos (by decide +kernel)] at hheader
  have habsent : p'.session.disk.pathExists
      (includePath (Path.descend "/w/proj" []) "sub/missing.h") = false := by
    rw [hdisk]
    decide +kernel
  exact ⟨p', s, r, hok, hs, hc, hget, hheader, hmissing habsent (by decide +kernel)⟩

def halfInclude : String := String.ofList [Text.ofCode 0xD800] ++ "/../sub/b.h"

/-- Half of a character on the way keeps an include from being resolved, though it names a scanned
file. -/
theorem resolveImport_halfInclude : ∃ p' s r,
    (do Run.onAnalysis 0 Work.buildFileSystem; Run.scanFiles 0 : Run Unit) program = .ok () p' ∧
      s ∈ p'.scanners ∧ s.language = .c ∧ s.results.get? "proj/a.c" = some r ∧
      '\x00' ∉ halfInclude.toList ∧ Scans disk filters "/w/proj" ["sub"] "b.h" ∧
      includePath "/w/proj" halfInclude = Path.descend "/w/proj" ["sub", "b.h"] ∧
      Scanner.resolveImport .c ⟨0, job.analysis.settings, disk, []⟩ r halfInclude =
        .ok halfInclude ∧
      halfInclude ≠ nodeName "/w/proj" ["sub", "b.h"] := by
  have heval : (scanned?.bind fun p' => (p'.scanners.find? fun s => s.language = .c).bind fun s =>
      (s.results.get? "proj/a.c").bind fun r =>
        (Scanner.resolveImport .c ⟨0, job.analysis.settings, disk, []⟩ r halfInclude).toOption) =
          some halfInclude := by
    decide +kernel
  obtain ⟨p', hp', heval⟩ := Option.bind_eq_some_iff.mp heval
  obtain ⟨s, hfind, heval⟩ := Option.bind_eq_some_iff.mp heval
  obtain ⟨r, hget, heval⟩ := Option.bind_eq_some_iff.mp heval
  refine ⟨p', s, r, of_scanned? hp',
    List.mem_of_find?_eq_some hfind, by
      simpa using List.find?_some hfind,
      hget, by decide +kernel, scans_header, by decide +kernel, ?_, by decide +kernel⟩
  cases hresolve : Scanner.resolveImport .c ⟨0, job.analysis.settings, disk, []⟩ r halfInclude with
  | ok path =>
    rw [hresolve] at heval
    rw [Option.some.inj heval]
  | error e =>
    rw [hresolve] at heval
    cases heval

end Sample

end CodeAtlas
