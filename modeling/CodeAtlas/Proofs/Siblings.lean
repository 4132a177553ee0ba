import CodeAtlas.Proofs.LineImports

/-!
# Imports from the directory of a file

A module `m` beside a file can be imported in three ways: `from .m import x`, `from . import m` and
`from . import m, n`. Each is read by rules of its own (`SiblingForm`). The file of `m` is found by
the first unless there is a dot in the name of the directory, by the second only in the source
directory itself, and by the third unless there is `.py` in the name of the directory
(`Scanner.scanFile_sibling`).
-/

namespace CodeAtlas

open Chars Effect Phrase Resolve Spacing
open Text (isBlank)

/-! ### Texts -/

namespace Chars

variable {bs bs' cs : List Char}

theorem append_slash_inj (as as' : List Char) (hbs : '/' ∉ bs) (hbs' : '/' ∉ bs') :
    as ++ '/' :: bs = as' ++ '/' :: bs' ↔ as = as' ∧ bs = bs' := by
  constructor
  · intro h
    rcases List.append_eq_append_iff.mp h with ⟨more, rfl, hrest⟩ | ⟨more, rfl, hrest⟩
    · cases more with
      | nil => exact ⟨by simp, by simpa using hrest⟩
      | cons c more => exact absurd (by rw [(List.cons.inj hrest).2]; simp) hbs
    · cases more with
      | nil => exact ⟨by simp, by simpa using hrest.symm⟩
      | cons c more => exact absurd (by rw [(List.cons.inj hrest).2]; simp) hbs'
  · rintro ⟨rfl, rfl⟩
    rfl

theorem trim_append (as bs : List Char) (has : ∀ c ∈ as, isBlank c = true)
    (hcs : ∀ c ∈ cs, isBlank c = false) (hbs : ∀ c ∈ bs, isBlank c = true) :
    trim (as ++ (cs ++ bs)) = cs := by
  have hdrop : ∀ {ds es : List Char}, (∀ c ∈ ds, isBlank c = true) → (∀ c ∈ es, isBlank c = false) →
      (ds ++ es).dropWhile isBlank = es := by
    intro ds es hds hes
    rw [List.dropWhile_append_of_pos hds]
    cases es with
    | nil => rfl
    | cons e es => rw [List.dropWhile_cons_of_neg (by simp [hes e List.mem_cons_self])]
  cases cs with
  | nil =>
    have hall : ∀ c ∈ as ++ bs, isBlank c = true := List.forall_mem_append.mpr ⟨has, hbs⟩
    rw [List.nil_append, trim, trimBy, List.dropWhile_eq_nil_iff.mpr hall]
    rfl
  | cons c cs =>
    have hc := hcs c List.mem_cons_self
    rw [trim, trimBy, List.dropWhile_append_of_pos has, List.cons_append,
      List.dropWhile_cons_of_neg (by simp [hc]), ← List.cons_append, dropTrailing,
      List.reverse_append, hdrop, List.reverse_reverse]
    · exact fun d hd => hbs d (List.mem_reverse.mp hd)
    · exact fun d hd => hcs d (List.mem_reverse.mp hd)

end Chars

theorem Spot.lastWord?_eq {s : Spot} {p : Char → Bool}
    (h : ∀ c ∈ s.skipGaps.rest, p c = true ∨ isBlank c = false) (fuel : Nat) :
    s.lastWord? p (fuel + 1) = if s.skipGaps.rest.takeWhile p = [] then none
      else some (s.skipGaps.rest.takeWhile p) := by
  rw [lastWord?, word?]
  cases htake : s.skipGaps.rest.takeWhile p with
  | nil => rfl
  | cons c cs =>
    have hrest : (s.skipGaps.advance (c :: cs).length).rest = s.skipGaps.rest.dropWhile p := by
      rw [rest_advance, ← htake, drop_length_takeWhile]
    -- what follows is neither a gap nor part of a run
    have hnone : ∀ fuel, (s.skipGaps.advance (c :: cs).length).lastWord? p fuel = none := by
      intro fuel
      cases fuel with
      | zero => rfl
      | succ fuel =>
        have hword : (s.skipGaps.advance (c :: cs).length).word? p = none := by
          cases hdrop : s.skipGaps.rest.dropWhile p with
          | nil =>
            have hnil : (s.skipGaps.advance (c :: cs).length).skipGaps.rest.takeWhile p = [] := by
              rw [rest_skipGaps, hrest, hdrop]
              rfl
            rw [word?, hnil]
          | cons d ds =>
            have hmem : d ∈ s.skipGaps.rest :=
              (List.dropWhile_sublist p).subset (hdrop ▸ List.mem_cons_self)
            have hd : p d = false := by
              have hhead := List.head?_dropWhile_not p s.skipGaps.rest
              rw [hdrop] at hhead
              simpa using hhead
            exact word?_eq_none_of_cons (hrest.trans hdrop)
              ((h d hmem).resolve_left (by simp [hd])) hd
        rw [lastWord?, hword]
    simp only [hnone]
    rfl

namespace Imports

variable {ctx : ScanContext} {here : Place} {m n x : String} {ws : List String}

/-! ### Three ways to write it -/

/-- A name of a module or of something in it. -/
structure ModuleName (s : String) : Prop where
  ne_empty : s ≠ ""
  run : ∀ c ∈ s.toList, isBreak quoteMarks c = false
  noDot : '.' ∉ s.toList
  noSlash : '/' ∉ s.toList

theorem ModuleName.piece (h : ModuleName m) : Piece quoteMarks m.toList :=
  .of_run (mt String.toList_eq_nil_iff.mp h.ne_empty) h.run

theorem ModuleName.noComma (h : ModuleName m) : ',' ∉ m.toList :=
  fun hmem => absurd (h.run ',' hmem) (by decide)

/-- How a module beside a file is imported. -/
inductive SiblingForm where
  /-- `from .m import x` -/
  | member (x : String)
  /-- `from . import m` -/
  | alone
  /-- `from . import m, n` -/
  | listed (n : String)

namespace SiblingForm

def line (m : String) : SiblingForm → String
  | member x => "from ." ++ m ++ " import " ++ x
  | alone => "from . import " ++ m
  | listed n => "from . import " ++ m ++ ", " ++ n

def other? : SiblingForm → Option String
  | member x => some x
  | alone => none
  | listed n => some n

def words (m : String) : SiblingForm → List String
  | member x => ["from", "." ++ m, "import", x]
  | alone => ["from", ".", "import", m]
  | listed n => ["from", ".", "import", m, ",", n]

variable {form : SiblingForm}

variable {w : String}

theorem run_of_mem_words (hm : ModuleName m) (h : ∀ n ∈ form.other?, ModuleName n)
    (hw : w ∈ form.words m) : w = "," ∨ w ≠ "" ∧ ∀ c ∈ w.toList, isBreak quoteMarks c = false := by
  have hcases : w ∈ ["from", ".", "import", ","] ∨ w = "." ++ m ∨ w = m ∨ w ∈ form.other? := by
    cases form <;> simp only [words, other?, List.mem_cons, List.not_mem_nil, Option.mem_def,
      Option.some_inj, reduceCtorEq, or_false, eq_comm (b := w)] at hw ⊢ <;> tauto
  rcases hcases with hw | rfl | rfl | hw
  · have hfixed : ∀ w ∈ ["from", ".", "import", ","], w = "," ∨ w ≠ "" ∧
        ∀ c ∈ w.toList, isBreak quoteMarks c = false := by
      decide
    exact hfixed w hw
  · refine .inr ⟨by simp [← String.toList_inj], ?_⟩
    rw [String.toList_append]
    exact List.forall_mem_append.mpr ⟨by decide, hm.run⟩
  · exact .inr ⟨hm.ne_empty, hm.run⟩
  · exact .inr ⟨(h w hw).ne_empty, (h w hw).run⟩

theorem pieces_words (hm : ModuleName m) (h : ∀ n ∈ form.other?, ModuleName n) :
    Pieces quoteMarks (form.words m) := by
  intro w hw
  rcases run_of_mem_words hm h hw with rfl | ⟨hne, hrun⟩
  · exact piece_of_mem_cut (show [','] ∈ cut quoteMarks [','] by decide)
  · exact .of_run (mt String.toList_eq_nil_iff.mp hne) hrun

theorem mayImport_words (hm : ModuleName m) (h : ∀ n ∈ form.other?, ModuleName n) :
    mayImport (joinWords (form.words m)) = true := by
  refine mayImport_joinWords (by cases form <;> simp [words]) fun w hw hmem => ?_
  rcases run_of_mem_words hm h hw with rfl | ⟨-, hrun⟩
  · exact absurd hmem (by decide)
  · exact absurd (hrun '>' hmem) (by decide)

theorem not_newline_mem_words (hm : ModuleName m) (h : ∀ n ∈ form.other?, ModuleName n) :
    "\n" ∉ form.words m := by
  intro hw
  rcases run_of_mem_words hm h hw with hw | ⟨-, hrun⟩
  · exact absurd hw (by decide)
  · exact absurd (hrun '\n' (by decide)) (by decide)

theorem fileWords_joinWords (hws : Pieces quoteMarks ws) :
    Language.python.fileSpacing.words (joinWords ws) = ws := by
  rw [fileWords_eq, cut_isLine hws ⟨[], [], .inl rfl, .inl rfl, by simp⟩]
  simp

theorem fileWords_line (hm : ModuleName m) (h : ∀ n ∈ form.other?, ModuleName n) :
    Language.python.fileSpacing.words (form.line m) = form.words m := by
  have hpieces := pieces_words hm h
  have halone : alone.line m = joinWords (alone.words m) := by
    show "from . import " ++ m = joinWords ["from", ".", "import", m]
    rw [← String.toList_inj, toList_joinWords_cons]
    simp [spreadWords, spread]
  cases form with
  | member x =>
    have htext : (member x).line m = joinWords ((member x).words m) := by
      show "from ." ++ m ++ " import " ++ x = joinWords ["from", "." ++ m, "import", x]
      rw [← String.toList_inj, toList_joinWords_cons]
      simp [spreadWords, spread]
    rw [htext, fileWords_joinWords hpieces]
  | alone => rw [halone, fileWords_joinWords hpieces]
  | listed n =>
    -- the comma has no blank before it
    have htext : ((listed n).line m).toList = (alone.line m).toList ++ ',' :: ' ' :: n.toList := by
      show ("from . import " ++ m ++ ", " ++ n).toList =
        ("from . import " ++ m).toList ++ ',' :: ' ' :: n.toList
      simp
    have hfirst : Language.python.fileSpacing.words (joinWords (alone.words m)) = alone.words m :=
      fileWords_joinWords (pieces_words hm (by simp [other?]))
    rw [fileWords_eq] at hfirst
    rw [fileWords_eq, htext, halone, cut_append _ (by simp [isBreak, quoteMarks, plainMarks]),
      List.map_append, hfirst, cut_mark (by decide) (by decide),
      cut_blank _ (by decide) (by decide), (h n rfl).piece.cut_eq]
    simp [words]

/-! ### What is read in the line -/

theorem contains_from (rest : List String) :
    Text.contains (joinWords ("from" :: rest)) "from" = true := by
  rw [contains_joinWords (by decide) (by decide), List.any_cons,
    show Text.contains "from" "from" = true by decide, Bool.true_or]

/-- The start of a name that is read as a name. -/
def readPart (m : String) : String := leading (nameChar moduleChars) m

theorem importedModule?_from (hws : Pieces quoteMarks (w :: ws)) (hw : w ≠ "\n")
    (hread : readPart w ≠ "") :
    importedModule? (joinWords ("from" :: w :: ws)) = some (readPart w) := by
  have hkey : Piece quoteMarks "from".toList := .of_run (by decide) (by decide)
  obtain ⟨s, hkeyword, hs⟩ := Spot.exists_keyword?_start hkey (by decide) (w :: ws)
  obtain ⟨t, hword, -⟩ := Spot.word?_of_code (p := nameChar moduleChars) (by decide) hws hs
    (pastNewlines_cons hw ws) fun hnil => hread (leading_eq_empty.mpr hnil)
  have hother : (Spot.start (joinWords ("from" :: w :: ws))).keyword? "import" = none := by
    have hrest : (Spot.start (joinWords ("from" :: w :: ws))).rest =
        'f' :: ("rom".toList ++ spreadWords (w :: ws)) :=
      toList_joinWords_cons "from" (w :: ws)
    rw [Spot.keyword?, Spot.skipGaps_of_cons hrest (by decide), hrest]
    rfl
  rw [importedModule?, hother, Option.none_or, hkeyword]
  simp only [Option.bind_eq_bind, Option.bind_some, hword]
  rfl

theorem lineImport?_member (hm : ModuleName m) (hx : ModuleName x) :
    lineImport? (joinWords ((member x).words m)) = some (.single ("." ++ readPart m) true) := by
  have hpieces : Pieces quoteMarks ((member x).words m) :=
    pieces_words hm fun n hn => Option.some.inj hn ▸ hx
  have hread : readPart ("." ++ m) = "." ++ readPart m := by
    rw [readPart, readPart, leading, leading, String.toList_append, ← String.toList_inj,
      String.toList_append]
    simp [show nameChar moduleChars '.' = true by decide]
  have hmodule : importedModule? (joinWords ((member x).words m)) = some ("." ++ readPart m) := by
    rw [← hread]
    refine importedModule?_from (fun w hw => hpieces w (List.mem_cons_of_mem _ hw)) (fun heq => ?_)
      (fun heq => ?_)
    · exact absurd (congrArg (·.toList.head?) heq) (by simp)
    · rw [hread] at heq
      exact absurd (congrArg (·.toList.head?) heq) (by simp)
  have hdots : ∀ d ∈ [".", ".."], d ∉ (member x).words m := by
    intro d hd hmem
    simp only [words, List.mem_cons, List.not_mem_nil, or_false] at hmem
    rcases hmem with rfl | rfl | rfl | rfl
    · exact absurd hd (by decide)
    · have hrest : m.toList = [] ∨ m.toList = ['.'] := by
        simp only [List.mem_cons, List.not_mem_nil, or_false] at hd
        exact hd.imp (fun h => by simpa using congrArg String.toList h)
          (fun h => by simpa using congrArg String.toList h)
      rcases hrest with hrest | hrest
      · exact hm.ne_empty (String.toList_eq_nil_iff.mp hrest)
      · exact hm.noDot (hrest ▸ List.mem_cons_self)
    · exact absurd hd (by decide)
    · have hdot : ∀ d ∈ [".", ".."], '.' ∈ d.toList := by decide
      exact hx.noDot (hdot _ hd)
  rw [lineImport?_joinWords hpieces (hdots _ (by decide)) (hdots _ (by decide)), hmodule, words,
    contains_from]
  rfl

def listChar (c : Char) : Bool := nameChar (moduleChars ++ [',', ' ']) c

theorem relativeImports?_joinWords (hws : Pieces quoteMarks (w :: ws)) (hnewline : "\n" ∉ w :: ws) :
    relativeImports? "." (joinWords ("from" :: "." :: "import" :: w :: ws)) =
      if (joinWords (w :: ws)).toList.takeWhile listChar = [] then none
      else some (String.ofList ((joinWords (w :: ws)).toList.takeWhile listChar)) := by
  have hkey : ∀ k ∈ ["from", ".", "import"], Piece quoteMarks k.toList := by
    intro k hk
    simp only [List.mem_cons, List.not_mem_nil, or_false] at hk
    rcases hk with rfl | rfl | rfl <;> exact .of_run (by decide) (by decide)
  have himport : Pieces quoteMarks ("import" :: w :: ws) :=
    List.forall_mem_cons.mpr ⟨hkey _ (by simp), hws⟩
  have hdot : Pieces quoteMarks ("." :: "import" :: w :: ws) :=
    List.forall_mem_cons.mpr ⟨hkey _ (by simp), himport⟩
  obtain ⟨s₁, hs₁, hrest₁⟩ :=
    Spot.exists_keyword?_start (hkey "from" (by simp)) (by decide) ("." :: "import" :: w :: ws)
  obtain ⟨s₂, hs₂, hrest₂⟩ :=
    Spot.exists_keyword?_of_code hdot hrest₁ (pastNewlines_cons (by decide) _)
  obtain ⟨s₃, hs₃, hrest₃⟩ :=
    Spot.exists_keyword?_of_code himport hrest₂ (pastNewlines_cons (by decide) _)
  have hw : w ≠ "\n" := fun heq => hnewline (heq ▸ List.mem_cons_self)
  have hrest : s₃.skipGaps.rest = (joinWords (w :: ws)).toList := by
    rw [Spot.rest_skipGaps, hrest₃, Spot.dropWhile_isGap_spreadWords hws, pastNewlines_cons hw]
  have hink : ∀ c ∈ (joinWords (w :: ws)).toList, listChar c = true ∨ isBlank c = false := by
    intro c hc
    rw [toList_joinWords] at hc
    rcases Chars.mem_join hc with hc | ⟨cs, hcs, hc⟩
    · rw [List.mem_singleton.mp hc]
      decide
    · obtain ⟨v, hv, rfl⟩ := List.mem_map.mp hcs
      exact .inr (isBlank_of_mem (hws v hv) (fun heq => hnewline (heq ▸ hv)) hc)
  obtain ⟨fuel, hfuel⟩ : ∃ fuel, s₃.rest.length = fuel + 1 := by
    rw [hrest₃, spreadWords_cons]
    exact ⟨_, rfl⟩
  have hlast := Spot.lastWord?_eq (by rwa [hrest]) fuel
  rw [relativeImports?, hs₁]
  simp only [Option.bind_eq_bind, Option.bind_some, hs₂, hs₃, hfuel]
  rw [show nameChar (moduleChars ++ [',', ' ']) = listChar from rfl, hlast, hrest]
  split_ifs <;> rfl

/-- Where there is one dot, the names that follow are told by the commas between them. -/
theorem lineImport?_dot (hws : Pieces quoteMarks (w :: ws)) (hnewline : "\n" ∉ w :: ws)
    {run : List Char} (hrun : (joinWords (w :: ws)).toList.takeWhile listChar = run) :
    lineImport? (joinWords ("from" :: "." :: "import" :: w :: ws)) = if run = [] then none
      else if ',' ∈ run then some (.siblings (splitNames (String.ofList run)))
        else some (.single (String.ofList run) true) := by
  have hdot : Text.contains (joinWords ("from" :: "." :: "import" :: w :: ws)) "from . " =
      true := by
    rw [Text.contains, contains_iff_infix, toList_joinWords_cons]
    exact ⟨[], "import".toList ++ spreadWords (w :: ws), by simp [spreadWords_cons]⟩
  have hcomma : Text.contains (String.ofList run) "," = true ↔ ',' ∈ run := by
    rw [Text.contains, contains_iff_infix]
    exact (List.singleton_infix_iff ',' _).trans (by rw [String.toList_ofList])
  rw [lineImport?, hdot, if_pos rfl, relativeImports?_joinWords hws hnewline, hrun, contains_from]
  split_ifs <;> simp_all

theorem takeWhile_listChar (hm : ModuleName m) :
    m.toList.takeWhile listChar = (readPart m).toList := by
  have hsame : leading listChar m = readPart m := by
    refine leading_congr fun c hc => ?_
    have hmarks : c ≠ ',' ∧ c ≠ ' ' := by
      constructor <;>
      · rintro rfl
        exact absurd (hm.run _ hc) (by decide)
    simp [listChar, nameChar, hmarks]
  rw [← hsame, leading, String.toList_ofList]

theorem readPart_subset (m : String) : (readPart m).toList ⊆ m.toList := by
  rw [readPart, leading, String.toList_ofList]
  exact (List.takeWhile_prefix _).subset

theorem not_mem_readPart {c : Char} (h : c ∉ m.toList) : c ∉ (readPart m).toList :=
  fun hmem => h (readPart_subset m hmem)

theorem readPart_eq_self : readPart m = m ↔ ∀ c ∈ m.toList, nameChar moduleChars c = true :=
  leading_eq_self

theorem lineImport?_alone (hm : ModuleName m) : lineImport? (joinWords (alone.words m)) =
    if readPart m = "" then none else some (.single (readPart m) true) := by
  have hws : Pieces quoteMarks [m] := List.forall_mem_singleton.mpr hm.piece
  have hnewline : "\n" ∉ [m] := by
    intro hmem
    rw [← List.mem_singleton.mp hmem] at hm
    exact absurd (hm.run '\n' (by decide)) (by decide)
  have hrun : (joinWords [m]).toList.takeWhile listChar = (readPart m).toList := by
    rw [toList_joinWords_cons, ← takeWhile_listChar hm]
    simp [spreadWords, spread]
  rw [words, lineImport?_dot hws hnewline hrun, if_neg (not_mem_readPart hm.noComma),
    String.ofList_toList]
  simp only [String.toList_eq_nil_iff]

theorem splitNames_pair (hm : ModuleName m) (hn : ModuleName n) :
    splitNames (String.ofList (m.toList ++ ' ' :: ',' :: ' ' :: (readPart n).toList)) =
    [m, readPart n] := by
  have hblank : ∀ {s : String}, ModuleName s → ∀ c ∈ s.toList, isBlank c = false := fun hs c hc =>
    (Bool.or_eq_false_iff.mp (hs.run c hc)).1
  have hread : ∀ c ∈ (readPart n).toList, isBlank c = false :=
    fun c hc => hblank hn c (readPart_subset n hc)
  have hfirst : ',' ∉ m.toList ++ [' '] := by simp [hm.noComma]
  have hsecond : ',' ∉ ' ' :: (readPart n).toList := by simp [not_mem_readPart hn.noComma]
  have hsplit : Chars.splitOn ',' (m.toList ++ ' ' :: ',' :: ' ' :: (readPart n).toList) =
      [m.toList ++ [' '], ' ' :: (readPart n).toList] := by
    have happend := splitOn_append_sep hfirst (' ' :: (readPart n).toList)
    rw [splitOn_of_not_mem hsecond, List.append_assoc] at happend
    exact happend
  have hleft : Chars.trim (m.toList ++ [' ']) = m.toList :=
    Chars.trim_append [] [' '] (by simp) (hblank hm) (by decide)
  have hright : Chars.trim (' ' :: (readPart n).toList) = (readPart n).toList := by
    have htrim := Chars.trim_append [' '] [] (by decide) hread (by simp)
    rwa [List.append_nil] at htrim
  rw [splitNames, Text.splitOn, String.toList_ofList, hsplit]
  simp [Text.trim, hleft, hright]

theorem lineImport?_listed (hm : ModuleName m) (hn : ModuleName n) :
    lineImport? (joinWords ((listed n).words m)) =
    if readPart m = m then some (.siblings [m, readPart n])
    else if readPart m = "" then none else some (.single (readPart m) true) := by
  have hother : ∀ v ∈ (listed n).other?, ModuleName v := fun v hv => Option.some.inj hv ▸ hn
  have hsub : ∀ w ∈ [m, ",", n], w ∈ (listed n).words m := fun w hw =>
    List.mem_cons_of_mem _ (List.mem_cons_of_mem _ (List.mem_cons_of_mem _ hw))
  have hws : Pieces quoteMarks [m, ",", n] := fun w hw => pieces_words hm hother w (hsub w hw)
  have hnewline : "\n" ∉ [m, ",", n] := fun hmem => not_newline_mem_words hm hother (hsub _ hmem)
  have htext : (joinWords [m, ",", n]).toList = m.toList ++ ' ' :: ',' :: ' ' :: n.toList := by
    rw [toList_joinWords_cons]
    simp [spreadWords, spread]
  by_cases hread : readPart m = m
  · have hall : ∀ c ∈ m.toList, listChar c = true := by
      rw [← List.takeWhile_eq_self_iff, takeWhile_listChar hm, hread]
    have hrun : (joinWords [m, ",", n]).toList.takeWhile listChar =
        m.toList ++ ' ' :: ',' :: ' ' :: (readPart n).toList := by
      rw [htext, List.takeWhile_append_of_pos hall, ← takeWhile_listChar hn]
      rfl
    rw [words, lineImport?_dot hws hnewline hrun, if_neg (by simp), if_pos (by simp), if_pos hread,
      splitNames_pair hm hn]
  · have hrun : (joinWords [m, ",", n]).toList.takeWhile listChar = (readPart m).toList := by
      rw [htext, List.takeWhile_append, takeWhile_listChar hm, if_neg]
      intro hlength
      have hstart : (readPart m).toList <+: m.toList := by
        rw [← takeWhile_listChar hm]
        exact List.takeWhile_prefix listChar
      exact hread (String.toList_inj.mp (hstart.eq_of_length hlength))
    rw [words, lineImport?_dot hws hnewline hrun, if_neg (not_mem_readPart hm.noComma),
      if_neg hread, String.ofList_toList]
    simp only [String.toList_eq_nil_iff]

end SiblingForm

/-! ### Where the names lead -/

def siblingName (dir m : String) : String := dir ++ "/" ++ (m ++ ".py")

theorem path_inj {a a' b b' : String} (hb : '/' ∉ b.toList) (hb' : '/' ∉ b'.toList) :
    a ++ "/" ++ b = a' ++ "/" ++ b' ↔ a = a' ∧ b = b' := by
  have hlists := append_slash_inj a.toList a'.toList hb hb'
  simp only [← String.toList_inj, String.toList_append] at hlists ⊢
  simpa using hlists

variable {dir name : String}

theorem ModuleName.not_slash_file (hm : ModuleName m) : '/' ∉ (m ++ ".py").toList := by
  simp [hm.noSlash]

theorem ne_siblingName (h : '/' ∉ name.toList) : name ≠ siblingName dir m := by
  rintro rfl
  simp [siblingName] at h

theorem path_ne_siblingName (hm : ModuleName m) (hslash : '/' ∉ name.toList)
    (hdot : '.' ∉ name.toList) (base : String) : base ++ "/" ++ name ≠ siblingName dir m := by
  intro heq
  obtain ⟨-, rfl⟩ := (path_inj hslash hm.not_slash_file).mp heq
  simp at hdot

theorem path_py_eq_siblingName (hm : ModuleName m) (hslash : '/' ∉ name.toList) (base : String) :
    base ++ "/" ++ (name ++ ".py") = siblingName dir m ↔ name = m ∧ dir = base := by
  rw [siblingName, path_inj (by simp [hslash]) hm.not_slash_file, String.append_left_inj]
  exact ⟨fun ⟨hbase, hname⟩ => ⟨hname, hbase.symm⟩, fun ⟨hname, hbase⟩ => ⟨hbase.symm, hname⟩⟩

theorem fromSource_eq_siblingName (hm : ModuleName m) (hdot : '.' ∉ name.toList)
    (hslash : '/' ∉ name.toList) (disk : Disk) (source : String) : fromSource disk source name =
      siblingName dir m ↔ name = m ∧ source ≠ "." ∧ dir = Path.name source ∧
      disk.pathExists (parentSlash source ++ siblingName dir m) = true := by
  have hsame : Text.replace name "." "/" = name :=
    Text.replace_of_not_infix fun hi => hdot (hi.subset (by decide))
  rw [fromSource, hsame]
  by_cases hsource : source = "."
  · have hpy : '/' ∉ (name ++ ".py").toList := by simp [hslash]
    simp only [hsource, beq_self_eq_true, if_true, ne_eq, not_true_eq_false, false_and, and_false,
      iff_false]
    split
    · exact ne_siblingName hpy
    · exact ne_siblingName hslash
  · have hne : (source == ".") = false := by simp [hsource]
    simp only [hne, Bool.false_eq_true, if_false]
    have hpath : parentSlash source ++ (Path.name source ++ "/" ++ name) ++ ".py" =
        parentSlash source ++ (Path.name source ++ "/" ++ (name ++ ".py")) := by
      simp only [String.append_assoc]
    have hpy : Path.name source ++ "/" ++ name ++ ".py" =
        Path.name source ++ "/" ++ (name ++ ".py") := by
      simp only [String.append_assoc]
    rw [hpath, hpy]
    split
    · next hexists =>
      rw [path_py_eq_siblingName hm hslash]
      constructor
      · rintro ⟨rfl, rfl⟩
        exact ⟨rfl, hsource, rfl, hexists⟩
      · rintro ⟨rfl, -, rfl, -⟩
        exact ⟨rfl, rfl⟩
    · next hmissing =>
      constructor
      · exact fun heq => absurd heq (path_ne_siblingName hm hslash hdot _)
      · rintro ⟨rfl, -, rfl, hexists⟩
        exact absurd hexists hmissing

theorem not_mem_replace_dot (s : String) : '.' ∉ (Text.replace s "." "/").toList := by
  have hchars : (Text.replace s "." "/").toList =
      s.toList.flatMap fun c => if c = '.' then ['/'] else [c] := by
    rw [Text.replace, String.toList_ofList]
    exact replace_singleton '.' ['/'] s.toList
  rw [hchars, List.mem_flatMap]
  rintro ⟨c, -, hc⟩
  split at hc
  · exact absurd hc (by decide)
  · next hne => exact hne (List.mem_singleton.mp hc).symm

theorem withExtension_of_not_mem (h : '.' ∉ name.toList) : withExtension name = name ++ ".py" := by
  have hpy : Text.contains name ".py" = false :=
    contains_eq_false_iff.mpr fun hi => h (hi.subset (by decide))
  rw [withExtension, hpy]
  rfl

theorem resolveName_dot (foreign : Bool) :
    resolveName ctx here "." foreign =
      if foreign then "." else fromSource ctx.disk here.source "." := by
  have habove : Text.contains "." ".." = false := by decide
  have hclimbs : Text.contains "." "../" = false := by decide
  have hsibling : startsWithOneDot "." = false := by decide
  cases foreign <;> simp [resolveName, habove, hclimbs, hsibling]

theorem fromSource_dot_ne (hm : ModuleName m) (disk : Disk) (source : String) :
    fromSource disk source "." ≠ siblingName dir m := by
  have hslash : Text.replace "." "." "/" = "/" := by decide
  obtain ⟨base, hbase⟩ : ∃ base, (if source == "." then "/" else Path.name source ++ "/" ++ "/") =
      base ++ "/" ++ "" := by
    split
    · exact ⟨"", rfl⟩
    · exact ⟨Path.name source ++ "/", by simp⟩
  simp only [fromSource, hslash, hbase]
  split
  · rw [String.append_assoc, ne_eq, path_py_eq_siblingName hm (by simp)]
    exact fun h => hm.ne_empty h.1.symm
  · exact path_ne_siblingName hm (by simp) (by simp) base

/-- A name after a dot is looked for in the directory of the file, and every dot in its path becomes
a slash. -/
theorem resolveName_dot_append (hempty : name ≠ "") (hdot : '.' ∉ name.toList)
    (hslash : '/' ∉ name.toList) (foreign : Bool) :
    resolveName ctx here ("." ++ name) foreign = if foreign then name
      else Text.replace (if Text.contains (inDirectory name here.relativeDir) "../"
        then fromDirectory ctx.disk (inDirectory name here.relativeDir) here.absoluteDir here.source
        else inDirectory name here.relativeDir) "." "/" ++ ".py" := by
  obtain ⟨c, cs, hc⟩ := List.exists_cons_of_ne_nil (mt String.toList_eq_nil_iff.mp hempty)
  have hne : c ≠ '.' := fun heq => hdot (by rw [hc, heq]; exact List.mem_cons_self)
  have htext : ("." ++ name).toList = '.' :: c :: cs := by simp [hc]
  have habove : Text.contains ("." ++ name) ".." = false := by
    rw [Text.contains, contains_eq_false_iff, htext]
    intro hi
    rcases List.infix_cons_iff.mp hi with hi | hi
    · exact hne (List.cons_prefix_cons.mp (List.cons_prefix_cons.mp hi).2).1.symm
    · exact hdot (hc ▸ hi.subset List.mem_cons_self)
  have hclimbs : Text.contains name "../" = false :=
    contains_eq_false_iff.mpr fun hi => hslash (hi.subset (by decide))
  have hsibling : startsWithOneDot ("." ++ name) = true := by
    rw [startsWithOneDot, htext]
    simp [hne]
  have hdrop : Text.drop ("." ++ name) 1 = name := by
    rw [Text.drop, htext, ← String.toList_inj, hc]
    simp
  cases foreign with
  | true => simp [resolveName, habove, hsibling, hdrop, hclimbs]
  | false =>
    rw [if_neg (by decide), ← withExtension_of_not_mem (not_mem_replace_dot _)]
    simp [resolveName, habove, hsibling, hdrop, hclimbs]

theorem resolveName_dot_eq_siblingName (hm : ModuleName m) (hdot : '.' ∉ name.toList)
    (hslash : '/' ∉ name.toList) (foreign : Bool) :
    resolveName ctx here ("." ++ name) foreign = siblingName here.relativeDir m ↔
      name = m ∧ '.' ∉ here.relativeDir.toList ∧ foreign = false := by
  by_cases hempty : name = ""
  · have hm' : name ≠ m := fun heq => hm.ne_empty (heq.symm.trans hempty)
    have hname : "." ++ name = "." := by rw [hempty]; rfl
    have hdir : fromSource ctx.disk here.source "." ≠ siblingName here.relativeDir m :=
      fromSource_dot_ne hm _ _
    have halone : "." ≠ siblingName here.relativeDir m := ne_siblingName (by decide)
    rw [hname, resolveName_dot]
    cases foreign <;> simp [hm', hdir, halone]
  rw [resolveName_dot_append hempty hdot hslash]
  cases foreign with
  | true =>
    simp only [if_true, Bool.true_eq_false, and_false, iff_false]
    exact ne_siblingName hslash
  | false =>
    have hsame : ∀ {path : String}, '.' ∉ path.toList →
        Text.replace path "." "/" = path := fun hpath =>
      Text.replace_of_not_infix fun hi => hpath (hi.subset (by decide))
    have hplain : '.' ∉ here.relativeDir.toList →
        Text.contains (inDirectory name here.relativeDir) "../" = false ∧
        Text.replace (inDirectory name here.relativeDir) "." "/" =
          here.relativeDir ++ "/" ++ name := by
      intro hdir
      have hpath : '.' ∉ (inDirectory name here.relativeDir).toList := by
        simp [inDirectory, hdir, hdot]
      exact ⟨contains_eq_false_iff.mpr fun hi => hpath (hi.subset (by decide)), hsame hpath⟩
    rw [if_neg (by decide), siblingName, ← String.append_assoc, String.append_left_inj]
    constructor
    · intro heq
      -- no dot is left in the path, so there was none in the directory
      have hdir : '.' ∉ here.relativeDir.toList :=
        fun hmem => not_mem_replace_dot _ (by rw [heq]; simp [hmem])
      obtain ⟨hclimbs, hpath⟩ := hplain hdir
      rw [hclimbs, if_neg (by decide), hpath] at heq
      exact ⟨((path_inj hslash hm.noSlash).mp heq).2, hdir, rfl⟩
    · rintro ⟨rfl, hdir, -⟩
      obtain ⟨hclimbs, hpath⟩ := hplain hdir
      rw [hclimbs, if_neg (by decide), hpath]

theorem withExtension_inDirectory (hdot : '.' ∉ name.toList) (dir : String) :
    withExtension (inDirectory name dir) =
      if Text.contains dir ".py" then dir ++ "/" ++ name else dir ++ "/" ++ (name ++ ".py") := by
  have hpy : Text.contains (inDirectory name dir) ".py" = Text.contains dir ".py" := by
    have htext : (inDirectory name dir).toList = dir.toList ++ '/' :: name.toList := by
      simp [inDirectory]
    rw [Text.contains, Text.contains, Bool.eq_iff_iff, contains_iff_infix,
      contains_iff_infix, htext]
    have hslash : ∀ c ∈ ('/' :: name.toList).head?, c ∉ ".py".toList := by
      intro c hc
      obtain rfl := Option.some.inj hc
      decide
    constructor
    · intro hi
      refine (infix_of_infix_append hslash hi).resolve_right fun hi => ?_
      have hmem := hi.subset (show '.' ∈ ".py".toList by decide)
      exact hdot ((List.mem_cons.mp hmem).resolve_left (by decide))
    · exact fun hi => hi.trans (List.prefix_append _ _).isInfix
  rw [withExtension, hpy, inDirectory]
  simp only [String.append_assoc]

theorem siblingName_mem_siblings (hm : ModuleName m) (hdot : '.' ∉ name.toList)
    (hslash : '/' ∉ name.toList) (dir : String) :
    siblingName dir m ∈ [m, name].map (fun n => withExtension (inDirectory n dir)) ↔
    Text.contains dir ".py" = false := by
  rw [List.map_cons, List.map_singleton, withExtension_inDirectory hm.noDot,
    withExtension_inDirectory hdot]
  cases Text.contains dir ".py" with
  | true =>
    have hfirst : siblingName dir m ≠ dir ++ "/" ++ m :=
      (path_ne_siblingName hm hm.noSlash hm.noDot dir).symm
    have hsecond : siblingName dir m ≠ dir ++ "/" ++ name :=
      (path_ne_siblingName hm hslash hdot dir).symm
    simp [hfirst, hsecond]
  | false => simp [siblingName]

/-! ### What the line yields -/

/-- Whether a line of the form finds the file of a module in a directory. -/
def SiblingForm.Finds (ctx : ScanContext) (source dir m : String) : SiblingForm → Prop
  | member _ => '.' ∉ dir.toList ∧ "." ++ m ∉ ctx.knownModules
  | alone => source ≠ "." ∧ dir = Path.name source
  | listed _ => Text.contains dir ".py" = false

section Yields

variable {d : String} (hresolve : ctx.settings.resolution.resolve = .list [])
  (hkeep : ctx.settings.resolution.keep = .list [])

include hresolve hkeep

theorem isForeign_eq_contains (name : String) :
    isForeign ctx.settings.resolution ctx.knownModules name =
      .ok (ctx.knownModules.contains name) := by
  rw [isForeign, hresolve, hkeep]
  rfl

theorem mem_meantNames_single (hkept : isIgnored ctx d = false) :
    d ∈ meantNames ctx here (.single name true) ↔
    resolveName ctx here name (ctx.knownModules.contains name) = d := by
  have hline : resolveLine ctx here (.single name true) =
      .ok [resolveName ctx here name (ctx.knownModules.contains name)] := by
    rw [resolveLine, resolveSingle, isForeign_eq_contains hresolve hkeep]
    rfl
  rw [meantNames, hline, List.mem_filter, List.mem_singleton, eq_comm]
  constructor
  · exact And.left
  · rintro rfl
    exact ⟨rfl, by rw [hkept]; rfl⟩

variable {form : SiblingForm} (hm : ModuleName m) (hknown : m ∉ ctx.knownModules)
  (hkept : isIgnored ctx (siblingName here.relativeDir m) = false)
  (hexists : ctx.disk.pathExists (parentSlash here.source ++ siblingName here.relativeDir m) = true)

include hm hknown hkept hexists

open SiblingForm in
theorem siblingName_mem_single : siblingName here.relativeDir m ∈
      (if readPart m = "" then none else some (LineImport.single (readPart m) true)).elim []
        (meantNames ctx here) ↔
    readPart m = m ∧ alone.Finds ctx here.source here.relativeDir m := by
  have hslash : '/' ∉ (readPart m).toList := not_mem_readPart hm.noSlash
  by_cases hempty : readPart m = ""
  · have hne : readPart m ≠ m := fun heq => hm.ne_empty (heq.symm.trans hempty)
    rw [if_pos hempty]
    simp [hne]
  rw [if_neg hempty, Option.elim_some, mem_meantNames_single hresolve hkeep hkept,
    resolveName_of_not_mem (not_mem_readPart hm.noDot)]
  cases hforeign : ctx.knownModules.contains (readPart m) with
  | true =>
    have hne : readPart m ≠ m := fun heq => hknown (by rw [← heq]; simpa using hforeign)
    rw [if_pos rfl]
    simp [hne, ne_siblingName hslash]
  | false =>
    rw [if_neg (by decide), fromSource_eq_siblingName hm (not_mem_readPart hm.noDot) hslash]
    simp [Finds, hexists]

open SiblingForm in
theorem siblingName_mem_lineNames (hother : ∀ n ∈ form.other?, ModuleName n) :
    siblingName here.relativeDir m ∈ lineNames ctx here (joinWords (form.words m)) ↔
      readPart m = m ∧ form.Finds ctx here.source here.relativeDir m := by
  rw [lineNames, if_pos (mayImport_words hm hother)]
  cases form with
  | member x =>
    rw [lineImport?_member hm (hother x rfl), Option.elim_some,
      mem_meantNames_single hresolve hkeep hkept,
      resolveName_dot_eq_siblingName hm (not_mem_readPart hm.noDot) (not_mem_readPart hm.noSlash)]
    constructor
    · rintro ⟨hread, hdir, hforeign⟩
      rw [hread] at hforeign
      exact ⟨hread, hdir, by simpa using hforeign⟩
    · rintro ⟨hread, hdir, hforeign⟩
      exact ⟨hread, hdir, by rw [hread]; simpa using hforeign⟩
  | alone =>
    rw [lineImport?_alone hm]
    exact siblingName_mem_single hresolve hkeep hm hknown hkept hexists
  | listed n =>
    rw [lineImport?_listed hm (hother n rfl)]
    by_cases hread : readPart m = m
    · have hn := hother n rfl
      rw [if_pos hread, Option.elim_some, meantNames, resolveLine, List.mem_filter,
        siblingName_mem_siblings hm (not_mem_readPart hn.noDot) (not_mem_readPart hn.noSlash)]
      simp [hread, Finds, hkept]
    · -- the list ends where the name does
      rw [if_neg hread, siblingName_mem_single hresolve hkeep hm hknown hkept hexists]
      simp [hread]

end Yields

end Imports

namespace Scanner

open Imports

/-- The file of a module beside the scanned one is among the imports exactly if its name is read as
a whole, the form of the line finds it and a line of code follows, or if another line yields it. -/
theorem scanFile_sibling (ctx : ScanContext) (file : SourceFile) (t : ScanState)
    (source pre m post dir : String) (form : SiblingForm)
    (hsource : ctx.settings.source = .text source) (hsettings : ctx.settings.Textual)
    (hlanguage : t.scanner.language = .python) (hcount : t.statistics.Countable)
    (hresolve : ctx.settings.resolution.resolve = .list [])
    (hkeep : ctx.settings.resolution.keep = .list [])
    (hcontent : file.content = pre ++ form.line m ++ "\n" ++ post) (hpre : EndsLine pre.toList)
    (hm : ModuleName m) (hother : ∀ n ∈ form.other?, ModuleName n)
    (hdir : (filePlace .python ctx source file).relativeDir = dir) (hknown : m ∉ ctx.knownModules)
    (hkept : isIgnored ctx (siblingName dir m) = false)
    (hexists : ctx.disk.pathExists (parentSlash source ++ siblingName dir m) = true) :
    ∃ r t', scanFile ctx file t = .ok r t' ∧ (siblingName dir m ∈ r.imports ↔
      (fileLines post ≠ [] ∧ (∀ c ∈ m.toList, nameChar moduleChars c = true) ∧
        form.Finds ctx source dir m) ∨
      ∃ other ∈ fileLines pre ++ (fileLines post).dropLast,
        siblingName dir m ∈ lineNames ctx (filePlace .python ctx source file) other) := by
  subst hdir
  have hwords := SiblingForm.fileWords_line hm hother
  obtain ⟨r, t', hscan, hr⟩ := exists_scanFile_line hsource hsettings hlanguage hcount hcontent hpre
    (by rw [hwords]; exact SiblingForm.not_newline_mem_words hm hother)
      (by rw [hwords]; cases form <;> rfl)
  refine ⟨r, t', hscan, ?_⟩
  rw [hr, hwords, siblingName_mem_lineNames hresolve hkeep hm hknown hkept hexists hother,
    SiblingForm.readPart_eq_self]
  rfl

end Scanner

namespace Sample

def siblingContext : ScanContext :=
  ⟨0, { source := .text "/w/proj" },
    { tree := .dir [("w",
      .dir [("proj", .dir [("sub", .dir [("a.py", .file .empty), ("b.py", .file .empty)])])])],
      cwd := [] }, ["os"]⟩

def siblingFile (content : String) : Scanner.SourceFile := ⟨"a.py", "/w/proj/sub/a.py", content⟩

theorem moduleName_letters : ∀ n ∈ ["b", "c"], Imports.ModuleName n := by
  intro n hn
  simp only [List.mem_cons, List.not_mem_nil, or_false] at hn
  rcases hn with rfl | rfl <;> exact ⟨by decide, by decide, by decide, by decide⟩

/-- The module is found by a line that names two, but not by one that names it alone. -/
theorem scanFile_sibling_sample :
    (∃ r s, Scanner.scanFile siblingContext
      (siblingFile "import os\nfrom . import b, c\nx = 1\n") pythonScanner = .ok r s ∧
      "proj/sub/b.py" ∈ r.imports) ∧
    ∃ r s, Scanner.scanFile siblingContext
      (siblingFile "import os\nfrom . import b\nx = 1\n") pythonScanner = .ok r s ∧
      "proj/sub/b.py" ∉ r.imports := by
  have hb := moduleName_letters "b" (by decide)
  have hc := moduleName_letters "c" (by decide)
  obtain ⟨r, s, hscan, hr⟩ :=
    Scanner.scanFile_sibling siblingContext (siblingFile "import os\nfrom . import b, c\nx = 1\n")
    pythonScanner "/w/proj" "import os\n" "b" "x = 1\n" "proj/sub"
      (.listed "c") rfl textual_plain rfl countable_pythonScanner
    rfl rfl (by decide) (.inr (by decide)) hb (fun n hn => Option.some.inj hn ▸ hc)
      (by decide +kernel) (by decide)
    (by decide +kernel) (by decide +kernel)
  obtain ⟨r', s', hscan', hr'⟩ :=
    Scanner.scanFile_sibling siblingContext (siblingFile "import os\nfrom . import b\nx = 1\n")
    pythonScanner "/w/proj" "import os\n" "b" "x = 1\n" "proj/sub" .alone rfl textual_plain rfl
      countable_pythonScanner
    rfl rfl (by decide) (.inr (by decide)) hb (by simp [Imports.SiblingForm.other?])
      (by decide +kernel) (by decide)
    (by decide +kernel) (by decide +kernel)
  have hfinds : Text.contains "proj/sub" ".py" = false := by decide
  refine ⟨⟨r, s, hscan, hr.mpr (.inl ⟨by decide +kernel, by decide, hfinds⟩)⟩, r', s', hscan',
    mt hr'.mp ?_⟩
  rintro (⟨-, -, -, hdir⟩ | hother)
  · exact absurd hdir (by decide)
  · revert hother
    decide +kernel

/-- A module beside a file that is not in the source directory is taken for one of the source
directory. -/
theorem scanFile_siblingBelow : siblingContext.disk.pathExists "/w/proj/sub/b.py" = true ∧
    ∃ r s, Scanner.scanFile siblingContext (siblingFile "from . import b\nx = 1\n") pythonScanner =
      .ok r s ∧
      r.imports = ["proj/b"] := by
  obtain ⟨r, s, hscan, hr⟩ : ∃ r s,
      Scanner.scanFile siblingContext (siblingFile "from . import b\nx = 1\n") pythonScanner =
        .ok r s ∧ r.imports = Imports.linesNames siblingContext
          (Scanner.filePlace .python siblingContext "/w/proj"
            (siblingFile "from . import b\nx = 1\n"))
          (Imports.fileLines "from . import b\nx = 1\n").dropLast :=
    Scanner.exists_scanFile_lines _ rfl textual_plain rfl countable_pythonScanner
  refine ⟨by decide +kernel, r, s, hscan, hr.trans ?_⟩
  decide +kernel

end Sample

end CodeAtlas
